import PolicyDialects.Json.Decode
import PolicyDialects.Text.Quoted

/-!
# Cedar documents

The header and clause structure of Cedar policies (specification, sections 4.3
and 10.6). Entities are kept as they are spelled, and the bodies of clauses as
CEL text.

* `Effect`, `ClauseKind`, `ScopeOperator` — the keywords.
* `Scope`, `ActionScope`, `Head`, `Clause`, `Note`, `Policy`, `Document`
  — the data.
* `Document.text` — the canonical layout, a clause a line and a blank line
  between policies.
* `Document.toJson`, `Document.ofJson?` — the exchange form.
-/

namespace PolicyDialects.Cedar

open Text

/-! ## Keywords -/

/-- What a policy does when it applies. Model of `Effect`. -/
inductive Effect where
  | permit | forbid
  deriving DecidableEq, Inhabited

namespace Effect

/-- The keyword of an effect. -/
def keyword : Effect → String
  | .permit => "permit"
  | .forbid => "forbid"

/-- The effect of a keyword in any case. -/
def ofKeyword? (word : String) : Option Effect :=
  [Effect.permit, .forbid].find? fun e => sameFold word e.keyword

end Effect

/-- Whether the body of a clause must be true or false. Model of
`ClauseKind`. -/
inductive ClauseKind where
  | when | unless
  deriving DecidableEq, Inhabited

namespace ClauseKind

/-- The keyword of a kind of clause. -/
def keyword : ClauseKind → String
  | .when => "when"
  | .unless => "unless"

/-- The kind of clause of a keyword in any case. -/
def ofKeyword? (word : String) : Option ClauseKind :=
  [ClauseKind.when, .unless].find? fun k => sameFold word k.keyword

end ClauseKind

/-- How a principal or resource is matched with an entity. Model of
`ScopeOperator`. -/
inductive ScopeOperator where
  /-- It is the entity. -/
  | eq
  /-- It is a member of the entity. -/
  | in
  deriving DecidableEq, Inhabited

namespace ScopeOperator

/-- The spelling of an operator. -/
def keyword : ScopeOperator → String
  | .eq => "=="
  | .in => "in"

/-- The operator of a spelling; that of membership may be in any case. -/
def ofKeyword? (word : String) : Option ScopeOperator :=
  if word = "==" then some .eq else if sameFold word "in" then some .in else none

/-- Whether members of the entity match. Model of
`ScopeOperator.is_membership`. -/
def isMembership : ScopeOperator → Bool
  | .eq => false
  | .in => true

/-- The name of an operator in exchanged data. -/
def name : ScopeOperator → String
  | .eq => "Eq"
  | .in => "In"

end ScopeOperator

/-! ## Data -/

/-- A constraint on the principal or the resource. Model of
`ScopeConstraint`. -/
structure Scope where
  operator : ScopeOperator
  entity : String
  deriving DecidableEq, Inhabited

/-- A constraint on the action. Model of `ActionConstraint`. -/
inductive ActionScope where
  | eq (entity : String)
  | in (entities : List String)
  deriving DecidableEq, Inhabited

/-- The actions that a constraint lists. Model of
`ActionConstraint.entities`. -/
def ActionScope.entities : ActionScope → List String
  | .eq entity => [entity]
  | .in entities => entities

/-- The constraints on a request; one that is missing matches everything. Model
of `PolicyHead`. -/
structure Head where
  principal : Option Scope := none
  action : Option ActionScope := none
  resource : Option Scope := none
  deriving DecidableEq, Inhabited

/-- A `when` or `unless` clause. Model of `Clause`. -/
structure Clause where
  kind : ClauseKind
  body : String
  deriving DecidableEq, Inhabited

/-- `@key("value")` before a policy. Model of `Annotation`. -/
structure Note where
  key : String
  value : Option String := none
  deriving DecidableEq, Inhabited

/-- A Cedar policy. Model of `CedarPolicy`. -/
structure Policy where
  notes : List Note := []
  effect : Effect
  head : Head
  clauses : List Clause := []
  deriving DecidableEq, Inhabited

/-- A sequence of policies. Model of `CedarDocument`. -/
structure Document where
  policies : List Policy
  deriving DecidableEq, Inhabited

/-- The value of the first annotation with a key. Model of
`CedarPolicy.annotation`. -/
def Policy.note? (p : Policy) (key : String) : Option String :=
  (p.notes.find? fun a => a.key = key).bind (·.value)

/-! ## Layout -/

/-- A slot of the head: its name, and the constraint if there is one. -/
def Scope.slotText (slot : String) : Option Scope → String
  | some c => slot ++ " " ++ c.operator.keyword ++ " " ++ c.entity
  | none => slot

/-- The action slot of the head. -/
def ActionScope.slotText : Option ActionScope → String
  | some (.eq entity) => "action == " ++ entity
  | some (.in entities) => "action in [" ++ ", ".intercalate entities ++ "]"
  | none => "action"

/-- The text of a head. Model of `PolicyHead.fmt`. -/
def Head.text (h : Head) : String :=
  Scope.slotText "principal" h.principal ++ ", " ++ ActionScope.slotText h.action ++ ", " ++
    Scope.slotText "resource" h.resource

/-- The text of a clause. Model of `Clause.fmt`. -/
def Clause.text (c : Clause) : String := c.kind.keyword ++ " \x7b " ++ c.body ++ " \x7d"

/-- The text of an annotation. -/
def Note.text (a : Note) : String :=
  match a.value with
  | some value => "@" ++ a.key ++ "(" ++ quote value ++ ")"
  | none => "@" ++ a.key

/-- Texts, each with something before it. -/
def eachAfter (separator : String) : List String → String
  | [] => ""
  | s :: rest => separator ++ s ++ eachAfter separator rest

/-- Texts, each with something after it. -/
def eachBefore (separator : String) : List String → String
  | [] => ""
  | s :: rest => s ++ separator ++ eachBefore separator rest

/-- The text of a policy. Model of `CedarPolicy.fmt`. -/
def Policy.text (p : Policy) : String :=
  eachBefore "\n" (p.notes.map Note.text) ++ p.effect.keyword ++ "(" ++ p.head.text ++
    ")" ++ eachAfter "\n" (p.clauses.map Clause.text) ++ ";"

/-- The text of a document. Model of `CedarDocument.fmt`. -/
def Document.text (d : Document) : String := "\n\n".intercalate (d.policies.map Policy.text)

/-! ## Exchange form -/

/-- A value, or null. -/
def orNull {α : Type} (encode : α → Json) (a : Option α) : Json := a.elim .null encode

/-- The effect of an exchange form. -/
def Effect.ofJson? (j : Json) : Option Effect := do
  let name ← j.unit?
  if name = "permit" then some .permit else if name = "forbid" then some .forbid else none

/-- The kind of clause of an exchange form. -/
def ClauseKind.ofJson? (j : Json) : Option ClauseKind := do
  let name ← j.unit?
  if name = "when" then some .when else if name = "unless" then some .unless else none

/-- The operator of an exchange form. -/
def ScopeOperator.ofJson? (j : Json) : Option ScopeOperator := do
  let name ← j.unit?
  if name = "Eq" then some .eq else if name = "In" then some .in else none

/-- The exchange form of a constraint. -/
def Scope.toJson (c : Scope) : Json :=
  .record [("operator", .str c.operator.name), ("entity", .str c.entity)]

/-- The constraint of an exchange form. -/
def Scope.ofJson? (j : Json) : Option Scope := do
  match ← j.fields? ["operator", "entity"] with
  | [operator, entity] =>
    return { operator := ← operator.required ScopeOperator.ofJson?,
             entity := ← entity.required Json.text? }
  | _ => none

/-- The exchange form of a constraint on the action. -/
def ActionScope.toJson : ActionScope → Json
  | .eq entity => .record [("Eq", .str entity)]
  | .in entities => .record [("In", .strings entities)]

/-- The constraint on the action of an exchange form. -/
def ActionScope.ofJson? (j : Json) : Option ActionScope := do
  let (tag, content) ← j.choice?
  if tag = "Eq" then return .eq (← content.text?)
  else if tag = "In" then return .in (← content.list? Json.text?)
  else none

/-- The exchange form of a head. -/
def Head.toJson (h : Head) : Json :=
  .record [("principal", orNull Scope.toJson h.principal),
    ("action", orNull ActionScope.toJson h.action),
    ("resource", orNull Scope.toJson h.resource)]

/-- The head of an exchange form. -/
def Head.ofJson? (j : Json) : Option Head := do
  match ← j.fields? ["principal", "action", "resource"] with
  | [principal, action, resource] =>
    return { principal := ← principal.nullable Scope.ofJson?,
             action := ← action.nullable ActionScope.ofJson?,
             resource := ← resource.nullable Scope.ofJson? }
  | _ => none

/-- The exchange form of a clause. -/
def Clause.toJson (c : Clause) : Json :=
  .record [("kind", .str c.kind.keyword), ("body", .str c.body)]

/-- The clause of an exchange form. -/
def Clause.ofJson? (j : Json) : Option Clause := do
  match ← j.fields? ["kind", "body"] with
  | [kind, body] =>
    return { kind := ← kind.required ClauseKind.ofJson?, body := ← body.required Json.text? }
  | _ => none

/-- The exchange form of an annotation. -/
def Note.toJson (a : Note) : Json :=
  .record [("key", .str a.key), ("value", orNull .str a.value)]

/-- The annotation of an exchange form. -/
def Note.ofJson? (j : Json) : Option Note := do
  match ← j.fields? ["key", "value"] with
  | [key, value] =>
    return { key := ← key.required Json.text?, value := ← value.nullable Json.text? }
  | _ => none

/-- The exchange form of a policy. -/
def Policy.toJson (p : Policy) : Json :=
  .record [("annotations", .array (p.notes.map Note.toJson)),
    ("effect", .str p.effect.keyword), ("head", p.head.toJson),
    ("clauses", .array (p.clauses.map Clause.toJson))]

/-- The policy of an exchange form. -/
def Policy.ofJson? (j : Json) : Option Policy := do
  match ← j.fields? ["annotations", "effect", "head", "clauses"] with
  | [notes, effect, head, clauses] =>
    return { notes := ← notes.required (Json.list? Note.ofJson?),
             effect := ← effect.required Effect.ofJson?,
             head := ← head.required Head.ofJson?,
             clauses := ← clauses.required (Json.list? Clause.ofJson?) }
  | _ => none

/-- The exchange form of a document. -/
def Document.toJson (d : Document) : Json :=
  .record [("policies", .array (d.policies.map Policy.toJson))]

/-- The document of an exchange form. -/
def Document.ofJson? (j : Json) : Option Document := do
  match ← j.fields? ["policies"] with
  | [policies] => return { policies := ← policies.required (Json.list? Policy.ofJson?) }
  | _ => none

end PolicyDialects.Cedar
