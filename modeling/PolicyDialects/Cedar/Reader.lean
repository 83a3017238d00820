import PolicyDialects.Cedar.Document
import PolicyDialects.Cedar.Lexical
import PolicyDialects.Cedar.Trial

/-!
# Reading Cedar documents

    document   := policy*
    policy     := annotation* effect "(" head ")" clause* ";"
    annotation := "@" ident ("(" string ")")?
    head       := principal "," action "," resource
    principal  := "principal" (scopeOp entity)?
    action     := "action" (actionEq | actionIn)?
    resource   := "resource" (scopeOp entity)?
    actionEq   := "==" entity
    actionIn   := "in" "[" entity ("," entity)* "]"
    scopeOp    := "==" | "in"
    clause     := ("when" | "unless") "{" text "}"

Keywords may be in any case, and space and comments may stand between tokens.
Choices are ordered, and what an optional or repeated part took is kept.

* `Place` — a byte offset and the text from there on.
* `Reader` — what a reader finds, and the rules it tried. The first part of
  its answer does not depend on trials before it.
* `document` — the grammar; `Document.parse` — a whole text.
-/

namespace PolicyDialects.Cedar

open Text

/-! ## Readers -/

/-- A place in a text. -/
structure Place where
  offset : Nat
  text : List Char
  deriving Inhabited

/-- The place where `rest`, an end of the text, starts. -/
def Place.at (p : Place) (rest : List Char) : Place :=
  ⟨p.offset + byteLength p.text - byteLength rest, rest⟩

/-- A reader: the value that it finds and the place after it, if any, and the
rules that it tried. -/
def Reader (α : Type) := Place → Option (α × Place) × List Trial

namespace Reader

/-- Finds a value without reading. -/
def pure {α : Type} (a : α) : Reader α := fun p => (some (a, p), [])

/-- Reads one thing after the other. -/
def bind {α β : Type} (r : Reader α) (f : α → Reader β) : Reader β := fun p =>
  match r p with
  | (none, trials) => (none, trials)
  | (some (a, q), trials) =>
    let (found, more) := f a q
    (found, trials ++ more)

instance : Monad Reader where
  pure := pure
  bind := bind

/-- A lexical shape, without trials. -/
def shape (take : List Char → Option (List Char × List Char)) : Reader String := fun p =>
  match take p.text with
  | some (s, rest) => (some (String.ofList s, p.at rest), [])
  | none => (none, [])

/-- Space and comments. -/
def space : Reader Unit := fun p => (some ((), p.at (skipSpace p.text)), [])

/-- A symbol. -/
def symbol (s : List Char) : Reader Unit := fun p =>
  match stripPrefix? s p.text with
  | some rest => (some ((), p.at rest), [])
  | none => (none, [])

/-- A keyword in any case. -/
def keyword (word : String) : Reader Unit := fun p =>
  match takeKeyword word.toList p.text with
  | some rest => (some ((), p.at rest), [])
  | none => (none, [])

/-- Reads under the name of a rule, whose trial is recorded. -/
def rule {α : Type} (name : Rule) (r : Reader α) : Reader α := fun p =>
  let (found, trials) := r p
  (found, [.mk name p.offset found.isNone trials])

/-- The first of two readers that finds something. -/
def orElse {α : Type} (r s : Reader α) : Reader α := fun p =>
  match r p with
  | (some found, trials) => (some found, trials)
  | (none, trials) =>
    let (found, more) := s p
    (found, trials ++ more)

/-- What a reader finds, or nothing. -/
def optional {α : Type} (r : Reader α) : Reader (Option α) := fun p =>
  match r p with
  | (some (a, q), trials) => (some (some a, q), trials)
  | (none, trials) => (some (none, p), trials)

/-- The list of everything that a reader finds, with space before each but the
first. -/
def many {α : Type} (r : Reader α) : Reader (List α) := fun p =>
  match r p with
  | (none, trials) => (some ([], p), trials)
  | (some (a, q), trials) =>
    let (as, q', more) := go q
    (some (a :: as, q'), trials ++ more)
where
  /-- The rest of the list. -/
  go (p : Place) : List α × Place × List Trial :=
    match (do space; r : Reader α) p with
    | (none, trials) => ([], p, trials)
    | (some (a, q), trials) =>
      if q.text.length < p.text.length then
        let (as, q', more) := go q
        (a :: as, q', trials ++ more)
      else ([a], q, trials)
  termination_by p.text.length

/-- The end of the text. -/
def finish : Reader Unit := rule .endOfInput fun p =>
  if p.text.isEmpty then (some ((), p), []) else (none, [])

end Reader

open Reader

/-! ## Grammar -/

/-- An identifier. The rule `ident`. -/
def ident : Reader String := rule .ident (shape takeIdent)

/-- A string literal, as its value. The rule `string`. -/
def string : Reader String := do
  let literal ← rule .string (shape takeString)
  return String.ofList (stringValue literal.toList)

/-- An annotation. The rule `annotation` and `build_annotation`. -/
def note : Reader Note := rule .note do
  symbol ['@']; space
  let key ← ident
  space
  let value ← optional do
    symbol ['(']; space
    let value ← string
    space; symbol [')']
    return value
  return { key, value }

/-- An effect. The rule `effect`. -/
def effect : Reader Effect := rule .effect <|
  orElse (do keyword "permit"; return .permit) (do keyword "forbid"; return .forbid)

/-- An entity. The rule `entity`. -/
def entity : Reader String := rule .entity (shape takeEntity)

/-- The operator between a slot and its entity. The rule `scope_op`. -/
def scopeOp : Reader ScopeOperator := rule .scopeOp <|
  orElse (do symbol ['=', '=']; return .eq) (do keyword "in"; return .in)

/-- The principal or resource slot. The rules `principal` and `resource`, and
`build_scope`. -/
def slot (name : Rule) (word : String) : Reader (Option Scope) := rule name do
  keyword word; space
  optional do
    let operator ← scopeOp
    space
    let entity ← entity
    return { operator, entity }

/-- A constraint to one action. The rule `action_eq`. -/
def actionEq : Reader ActionScope := rule .actionEq do
  symbol ['=', '=']; space
  let entity ← entity
  return .eq entity

/-- A constraint to a list of actions. The rule `action_in`. -/
def actionIn : Reader ActionScope := rule .actionIn do
  keyword "in"; space
  symbol ['[']; space
  let first ← entity
  space
  let rest ← many do
    symbol [',']; space
    entity
  space; symbol [']']
  return .in (first :: rest)

/-- The action slot. The rule `action` and `build_action`. -/
def action : Reader (Option ActionScope) := rule .action do
  keyword "action"; space
  optional (orElse actionEq actionIn)

/-- The slots of a policy. The rule `head` and `build_head`. -/
def head : Reader Head := rule .head do
  let principal ← slot .principal "principal"
  space; symbol [',']; space
  let action ← action
  space; symbol [',']; space
  let resource ← slot .resource "resource"
  return { principal, action, resource }

/-- The kind of a clause. The rule `clause_kind`. -/
def clauseKind : Reader ClauseKind := rule .clauseKind <|
  orElse (do keyword "when"; return .when) (do keyword "unless"; return .unless)

/-- The text between the braces of a clause. The rules `body` and
`body_text`. -/
def body : Reader String := rule .body do
  symbol ['\x7b']
  let text ← rule .bodyText (shape fun cs => some (takeBody cs))
  symbol ['\x7d']
  return trimmed text

/-- A clause. The rule `clause` and `build_clause`. -/
def clause : Reader Clause := rule .clause do
  let kind ← clauseKind
  space
  let body ← body
  return { kind, body }

/-- A policy. The rule `policy` and `build_policy`. -/
def policy : Reader Policy := rule .policy do
  let notes ← many note
  space
  let effect ← effect
  space; symbol ['(']; space
  let head ← head
  space; symbol [')']; space
  let clauses ← many clause
  space; symbol [';']
  return { notes, effect, head, clauses }

/-- A document. The rule `document`. -/
def document : Reader Document := rule .document do
  space
  let policies ← many policy
  space; finish
  return { policies }

/-! ## Texts -/

/-- The document that a text spells. Model of `CedarDocument.parse`, which is
`parse_document`. -/
def Document.parse (text : String) : Except PolicyError Document :=
  let cs := text.toList
  match document ⟨0, cs⟩ with
  | (some (d, _), _) => .ok d
  | (none, trials) => .error (refusal cs trials)

end PolicyDialects.Cedar
