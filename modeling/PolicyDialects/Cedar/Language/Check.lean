import PolicyDialects.Cedar.Language.Token
import PolicyDialects.Error

/-!
# Checking Cedar policies

Whether `cedar-policy`, version 4, takes a text for a sequence of policies: its
keywords in small letters, its entities `Path::"id"`, its expressions made of
the four variables, literals, entities, operators, and calls of known functions
and methods.

    expr     := "if" expr "then" expr "else" expr | or
    or       := and ("||" and)*
    and      := relation ("&&" relation)*
    relation := add | add op add | add "has" path | add "like" pattern | add "is" path ("in" add)?
    add      := mul (("+" | "-") mul)*
    mul      := unary ("*" unary)*
    unary    := ("!"* | "-"*) member, at most four signs
    member   := primary ("." name | "." method "(" args ")" | "[" string "]")*

Each level is a function of the check `inner` for expressions in brackets.

* `expr` — expressions; `policy` — policies; `policies` — whole texts.
* `compile` — the number of policies of a text, templates not counted, or the
  refusal.
-/

namespace PolicyDialects.Cedar.Language

/-- A check answers with the tokens after what it accepts. -/
abbrev Check := List Token → Option (List Token)

/-- The tokens after a mark. -/
def mark (spelling : String) : Check
  | .mark m :: rest => if m = spelling then some rest else none
  | _ => none

/-- The tokens after a keyword. -/
def word (keyword : String) : Check
  | .ident name :: rest => if name = keyword then some rest else none
  | _ => none

/-! ## Names -/

/-- Words that name nothing. -/
def reserved : List String :=
  ["true", "false", "if", "then", "else", "in", "is", "like", "has", "__cedar"]

/-- A name that is not reserved. -/
def name? : List Token → Option (String × List Token)
  | .ident name :: rest => if name ∈ reserved then none else some (name, rest)
  | _ => none

/-- The segments of a path after its first one, and the id after it, if any. -/
def pathTail : List Token → List String × Option (List Char) × List Token
  | .mark "::" :: .string id :: rest => ([], some id, rest)
  | .mark "::" :: .ident name :: rest =>
    if name ∈ reserved then ([], none, .mark "::" :: .ident name :: rest)
    else
      let (segments, id, after) := pathTail rest
      (name :: segments, id, after)
  | rest => ([], none, rest)

/-- A path of names, and the id of an entity if one follows. -/
def path? (ts : List Token) : Option (List String × Option (List Char) × List Token) := do
  let (first, ts) ← name? ts
  let (segments, id, ts) := pathTail ts
  return (first :: segments, id, ts)

/-- A path without an id. -/
def typePath : Check := fun ts => do
  match ← path? ts with
  | (_, none, ts) => some ts
  | _ => none

/-- An entity, with the last name of its path. -/
def entity? (ts : List Token) : Option (String × List Token) := do
  match ← path? ts with
  | (segments, some id, ts) => if isText id then some (segments.getLastD "", ts) else none
  | _ => none

/-- An entity. -/
def entity : Check := fun ts => (entity? ts).map (·.2)

/-! ## Lists -/

/-- Items separated by commas up to a closing bracket, which a comma may
precede; the answer says how many there are. -/
def items (close : String) (item : Check) (ts : List Token) : Option (Nat × List Token) :=
  match mark close ts with
  | some rest => some (0, rest)
  | none =>
    match item ts with
    | none => none
    | some after =>
      match mark "," after with
      | some rest =>
        if rest.length < ts.length then
          (items close item rest).map fun (n, r) => (n + 1, r)
        else none
      | none => (mark close after).map fun rest => (1, rest)
termination_by ts.length

/-! ## Operands -/

/-- The greatest integer. -/
def maxInteger : Nat := 9223372036854775807

/-- The variables of a request. -/
def requestVariables : List String := ["principal", "action", "resource", "context"]

/-- Functions. -/
def functions : List String := ["decimal", "ip", "datetime", "duration"]

/-- Methods with the number of arguments that is checked. -/
def methods : List (String × Option Nat) :=
  [("contains", some 1), ("containsAll", some 1), ("containsAny", some 1), ("isEmpty", some 0),
    ("getTag", some 1), ("hasTag", some 1), ("lessThan", none), ("lessThanOrEqual", none),
    ("greaterThan", none), ("greaterThanOrEqual", none), ("isIpv4", none), ("isIpv6", none),
    ("isLoopback", none), ("isMulticast", none), ("isInRange", none), ("offset", none),
    ("durationSince", none), ("toDate", none), ("toTime", none), ("toMilliseconds", none),
    ("toSeconds", none), ("toMinutes", none), ("toHours", none), ("toDays", none)]

/-- Whether a method takes a number of arguments. -/
def takesArguments (method : String) (count : Nat) : Bool :=
  match methods.find? (·.1 = method) with
  | some (_, some n) => n = count
  | some (_, none) => true
  | none => false

/-- A key and a value of a record. -/
def recordEntry (inner : Check) : Check
  | .ident _ :: rest => (mark ":" rest).bind inner
  | .string body :: rest => if isText body then (mark ":" rest).bind inner else none
  | _ => none

/-- A variable, a call of a function, or an entity. -/
def named (inner : Check) (ts : List Token) : Option (List Token) := do
  match ← path? ts with
  | (_, some id, rest) => if isText id then some rest else none
  | ([name], none, rest) =>
    if name ∈ requestVariables then some rest
    else if name ∈ functions then do
      let (_, rest) ← items ")" inner (← mark "(" rest)
      return rest
    else none
  | _ => none

/-- An operand without what follows it. -/
def primary (inner : Check) : Check
  | .number n :: rest => if n ≤ maxInteger then some rest else none
  | .string body :: rest => if isText body then some rest else none
  | .ident "true" :: rest => some rest
  | .ident "false" :: rest => some rest
  | .mark "(" :: rest => (inner rest).bind (mark ")")
  | .mark "[" :: rest => (items "]" inner rest).map (·.2)
  | .mark "\x7b" :: rest => (items "\x7d" (recordEntry inner) rest).map (·.2)
  | ts => named inner ts

/-- One attribute, method call or index. -/
def access (inner : Check) : Check
  | .mark "." :: rest => do
    let (name, rest) ← name? rest
    match mark "(" rest with
    | none => some rest
    | some args =>
      let (count, rest) ← items ")" inner args
      if takesArguments name count then some rest else none
  | .mark "[" :: .string body :: .mark "]" :: rest => if isText body then some rest else none
  | _ => none

/-- Whether something follows an operand that must be an attribute, a call or
an index. -/
def opensAccess : List Token → Bool
  | .mark m :: _ => m == "." || m == "[" || m == "("
  | _ => false

/-- Attributes, calls and indices after an operand. -/
def accesses (inner : Check) (ts : List Token) : Option (List Token) :=
  if opensAccess ts then
    match access inner ts with
    | none => none
    | some rest => if rest.length < ts.length then accesses inner rest else none
  else some ts
termination_by ts.length

/-- An operand with what follows it. -/
def member (inner : Check) : Check := fun ts => (primary inner ts).bind (accesses inner)

/-- Up to `n` signs; the answer says whether there were any. -/
def signs (sign : String) : (n : Nat) → List Token → Bool × List Token
  | 0, ts => (false, ts)
  | n + 1, ts =>
    match mark sign ts with
    | some rest => (true, (signs sign n rest).2)
    | none => (false, ts)

/-- An operand after its signs. The magnitude of a negated number may be one
more than that of a positive one. -/
def unary (inner : Check) : Check := fun ts =>
  match signs "-" 4 ts with
  | (true, .number n :: rest) => if n ≤ maxInteger + 1 then accesses inner rest else none
  | (true, rest) => member inner rest
  | (false, _) => member inner (signs "!" 4 ts).2

/-! ## Operators -/

/-- Operands after the first one, each after one of the given marks. -/
def chainFrom (operators : List String) (operand : Check) (ts : List Token) :
    Option (List Token) :=
  match ts with
  | .mark m :: rest =>
    if m ∈ operators then
      match operand rest with
      | none => none
      | some after => if after.length < rest.length then chainFrom operators operand after else none
    else some ts
  | ts => some ts
termination_by ts.length

/-- Operands with one of the given marks between them. -/
def chain (operators : List String) (operand : Check) : Check := fun ts =>
  (operand ts).bind (chainFrom operators operand)

/-- Sums. -/
def sum (inner : Check) : Check := chain ["+", "-"] (chain ["*"] (unary inner))

/-- The attributes after `has`: a string, or names with points between. -/
def attributes : Check
  | .string body :: rest => if isText body then some rest else none
  | ts => do
    let (_, rest) ← name? ts
    return names rest
where
  /-- More names, each after a point. -/
  names : List Token → List Token
    | .mark "." :: .ident name :: rest =>
      if name ∈ reserved then .mark "." :: .ident name :: rest else names rest
    | ts => ts

/-- Marks between two operands that are compared. -/
def comparisons : List String := ["==", "!=", "<", "<=", ">", ">="]

/-- A sum, or a relation between two of them. -/
def relation (inner : Check) : Check := fun ts => do
  let rest ← sum inner ts
  match rest with
  | .mark m :: after => if m ∈ comparisons then sum inner after else some rest
  | .ident "in" :: after => sum inner after
  | .ident "has" :: after => attributes after
  | .ident "like" :: .string body :: after => if isPattern body then some after else none
  | .ident "is" :: after =>
    let after ← typePath after
    match word "in" after with
    | some more => sum inner more
    | none => some after
  | _ => some rest

/-- Disjunctions. -/
def disjunction (inner : Check) : Check := chain ["||"] (chain ["&&"] (relation inner))

/-- An expression with at most the given number of expressions around its
innermost part. -/
def expr : (levels : Nat) → Check
  | 0, _ => none
  | n + 1, ts =>
    match word "if" ts with
    | some rest => do
      let rest ← word "then" (← expr n rest)
      let rest ← word "else" (← expr n rest)
      expr n rest
    | none => disjunction (expr n) ts

/-! ## Policies -/

/-- Whether a policy leaves an entity open, as a template does. -/
abbrev Template := Bool

/-- An entity, or the open place of a slot. -/
def entityOrSlot (slot : String) : List Token → Option (Template × List Token)
  | .mark "?" :: rest => (word slot rest).map fun r => (true, r)
  | ts => (entity ts).map fun r => (false, r)

/-- The principal or resource of a policy. -/
def scope (slot : String) (ts : List Token) : Option (Template × List Token) := do
  let ts ← word slot ts
  match ts with
  | .mark "==" :: rest => entityOrSlot slot rest
  | .ident "in" :: rest => entityOrSlot slot rest
  | .ident "is" :: rest =>
    let rest ← typePath rest
    match word "in" rest with
    | some more => entityOrSlot slot more
    | none => some (false, rest)
  | _ => some (false, ts)

/-- An entity that is an action. -/
def actionEntity : Check := fun ts => do
  let (type, rest) ← entity? ts
  if type = "Action" then some rest else none

/-- The action of a policy. -/
def actionScope (ts : List Token) : Option (List Token) := do
  let ts ← word "action" ts
  match ts with
  | .mark "==" :: rest => actionEntity rest
  | .ident "in" :: .mark "[" :: rest => (items "]" actionEntity rest).map (·.2)
  | .ident "in" :: rest => actionEntity rest
  | _ => some ts

/-- Clauses up to the semicolon. -/
def clauses (body : Check) (ts : List Token) : Option (List Token) :=
  match ts with
  | .mark ";" :: rest => some rest
  | .ident kind :: .mark "\x7b" :: rest =>
    if kind = "when" ∨ kind = "unless" then
      match (body rest).bind (mark "\x7d") with
      | none => none
      | some after => if after.length < rest.length then clauses body after else none
    else none
  | _ => none
termination_by ts.length

/-- Annotations, whose keys differ. -/
def notes (known : List String) : List Token → Option (List Token)
  | .mark "@" :: .ident key :: .mark "(" :: .string value :: .mark ")" :: rest =>
    if key ∈ known ∨ !isText value then none else notes (key :: known) rest
  | .mark "@" :: .ident key :: rest =>
    if key ∈ known then none else notes (key :: known) rest
  | .mark "@" :: _ => none
  | ts => some ts

/-- A policy; the answer says whether it is a template. -/
def policy (ts : List Token) : Option (Template × List Token) := do
  let levels := ts.length
  let ts ← notes [] ts
  let ts ← (word "permit" ts).orElse fun _ => word "forbid" ts
  let (principal, ts) ← scope "principal" (← mark "(" ts)
  let ts ← actionScope (← mark "," ts)
  let (resource, ts) ← scope "resource" (← mark "," ts)
  let ts ← mark ")" ((mark "," ts).getD ts)
  let ts ← clauses (expr levels) ts
  return (principal || resource, ts)

/-- The number of policies of a whole text that are no templates. -/
def policies (ts : List Token) : Option Nat :=
  if ts.isEmpty then some 0
  else
    match policy ts with
    | none => none
    | some (template, rest) =>
      if rest.length < ts.length then
        (policies rest).map fun n => if template then n else n + 1
      else none
termination_by ts.length

/-- The number of policies of a text, when it is Cedar. Model of
`compile_policy`. -/
def compile (text : String) : Except PolicyError Nat :=
  match (tokens? text).bind policies with
  | some n => .ok n
  | none => .error (.cedarRejected "not a sequence of policies")

end PolicyDialects.Cedar.Language
