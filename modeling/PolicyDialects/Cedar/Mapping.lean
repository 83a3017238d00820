import PolicyDialects.Cedar.Reader
import PolicyDialects.Condition
import PolicyDialects.Idql.Policy
import PolicyDialects.Idql.Subject

/-!
# IDQL policies as Cedar policies

An IDQL policy becomes one `permit` policy for each of its subjects. A Cedar
policy becomes one IDQL policy, its clauses folded into one condition
(specification, sections 4.5 and 10.6).

* `Mapping` — attribute names and container types.
* `Mapping.cedarOf`, `Mapping.documentOf` — export.
* `Mapping.fold`, `Mapping.policyOf`, `Mapping.policiesOf` — import.
* `Mapping.textOf`, `Mapping.policiesOfText` — both ways with the document as
  text.
-/

namespace PolicyDialects.Cedar

open Text
open PolicyDialects.Filter (Expression Comparison)
open Idql (EntityKind Subject)

/-- How attributes are named, and which entities have members. Model of
`CedarPolicyMapper` and `CedarMapperOptions`. -/
structure Mapping where
  names : NameMap := {}
  containerTypes : List String := Idql.defaultContainerTypes
  deriving Inhabited

/-! ## Actions -/

/-- The start of an action that is meant for Cedar. The constant
`CEDAR_ACTION_PREFIX`. -/
def actionPrefix : String := "cedar:"

/-- The start of the entity of a named action. The constant
`ACTION_ENTITY_PREFIX`. -/
def actionEntityStart : List Char := "Action::\"".toList

/-- The entity of an action: an action that names an entity is kept, and another
one becomes the id of an entity of type `Action`. Model of `action_entity`. -/
def actionEntity (action : String) : String :=
  let cs := action.toList
  let name := (stripPrefix? actionPrefix.toList cs).getD cs
  String.ofList <|
    if occursIn [':', ':'] name then name else actionEntityStart ++ name ++ ['"']

/-- The action of an entity: its id, when its type is `Action` and the id holds
no quote, or else the entity itself. Model of `action_name`. -/
def actionName (entity : String) : String :=
  match (stripPrefix? actionEntityStart entity.toList).bind (stripSuffix? ['"']) with
  | some id => if '"' ∈ id then entity else String.ofList id
  | none => entity

/-- The constraint to a list of actions; none leaves the slot open. Model of
`action_constraint`. -/
def actionScope : List String → Option ActionScope
  | [] => none
  | [action] => some (.eq (actionEntity action))
  | actions => some (.in (actions.map actionEntity))

/-! ## Export -/

/-- The condition of a request that is authenticated. The constant
`AUTHENTICATED_CLAUSE`. -/
def authenticatedBody : String := "context.authenticated == true"

/-- The key of the annotation with the id of a policy. The constant
`ID_ANNOTATION`. -/
def idKey : String := "id"

/-- The key of the annotation with the description of a policy. The constant
`DESCRIPTION_ANNOTATION`. -/
def descriptionKey : String := "description"

/-- The clause of a condition. The conditions of
`CedarPolicyMapper.map_policy`. -/
def Mapping.clauseOf (m : Mapping) (c : Idql.Condition) : Except PolicyError Clause := do
  let body ← PolicyDialects.Condition.celOfFilter m.names c.rule
  return match c.action with
    | .allow => ⟨.when, body⟩
    | .deny => ⟨.unless, body⟩

/-- The constraint to an object; white space around it does not count. Model of
`scope_constraint`. -/
def Mapping.objectScope (m : Mapping) (object : String) : Option Scope :=
  let entity := trimmed object
  if entity.isEmpty then none
  else
    match EntityKind.of m.containerTypes entity with
    | .single => some ⟨.eq, entity⟩
    | .container => some ⟨.in, entity⟩

/-- The constraint to a subject, and the clauses that it needs. The subjects of
`CedarPolicyMapper.map_policy`. -/
def Mapping.subjectScope (m : Mapping) (subject : String) : Option Scope × List Clause :=
  match Subject.classify m.containerTypes subject with
  | .any => (none, [])
  | .anyAuthenticated => (none, [⟨.when, authenticatedBody⟩])
  | .single entity => (some ⟨.eq, entity⟩, [])
  | .container entity => (some ⟨.in, entity⟩, [])

/-- The annotations that keep the id and description of a policy. -/
def notesOf (info : Idql.Meta) : List Note :=
  (info.policyId.map fun id => ⟨idKey, some id⟩).toList ++
    (info.description.map fun text => ⟨descriptionKey, some text⟩).toList

/-- The subjects of a policy; a policy without any is about everyone. -/
def subjectsOf (p : Idql.Policy) : List String :=
  if p.subjects.isEmpty then [Subject.anyName] else p.subjects

/-- The Cedar policies of a policy, one for each subject. Model of
`CedarPolicyMapper.map_policy`. -/
def Mapping.cedarOf (m : Mapping) (p : Idql.Policy) : Except PolicyError (List Policy) := do
  let condition ← p.condition.mapM m.clauseOf
  return (subjectsOf p).map fun subject =>
    let (principal, clauses) := m.subjectScope subject
    { notes := notesOf p.info,
      effect := .permit,
      head := { principal, action := actionScope p.actions, resource := m.objectScope p.object },
      clauses := clauses ++ condition.toList }

/-- The document of policies. Model of `CedarPolicyMapper.to_target`. -/
def Mapping.documentOf (m : Mapping) (policies : List Idql.Policy) :
    Except PolicyError Document := do
  let mapped ← policies.mapM m.cedarOf
  return ⟨mapped.flatten⟩

/-- The text of the document of policies. Model of `to_cedar_text`. -/
def Mapping.textOf (m : Mapping) (policies : List Idql.Policy) : Except PolicyError String := do
  return (← m.documentOf policies).text

/-! ## Import -/

/-- What the body of a clause that asks for authentication says. -/
def authenticated : Expression :=
  .compare (.with "context.authenticated" .eq (.boolean true))

/-- Whether a clause asks for authentication and nothing else, however it is
spaced or parenthesized. Model of `is_authenticated_clause`. -/
def asksAuthentication (c : Clause) : Except PolicyError Bool :=
  match c.kind with
  | .unless => .ok false
  | .when =>
    match PolicyDialects.Condition.filterOfCel .identity c.body with
    | .ok e => .ok (decide (e.unparenthesized = authenticated))
    | .error .literalWithoutValue => .error .literalWithoutValue
    | .error _ => .ok false

/-- The condition with a rule, which a denial refuses. Model of `condition`. -/
def conditionOf (rule : String) (deny : Bool) : Idql.Condition :=
  ⟨rule, if deny then .deny else .allow⟩

/-- One clause of several as an operand of `and`. The body of the loop of
`fold_clauses`. -/
def Mapping.operand (m : Mapping) (c : Clause) : Except PolicyError Expression := do
  let e ← PolicyDialects.Condition.filterOfCel m.names c.body
  return match c.kind with
    | .unless => .not e
    | .when => if e.isOr then .group e else e

/-- The condition of clauses. A single one keeps its own polarity; several are
joined by `and`, the `unless` ones negated, and the effect decides. Model of
`fold_clauses`. -/
def Mapping.fold (m : Mapping) (effect : Effect) :
    List Clause → Except PolicyError (Option Idql.Condition)
  | [] =>
    match effect with
    | .permit => .ok none
    | .forbid => .error (.unsupportedShape "unconditional forbid has no IDQL equivalent")
  | [c] => do
    let rule ← PolicyDialects.Condition.filterTextOfCel m.names c.body
    return some (conditionOf rule (decide (effect = .forbid) != decide (c.kind = .unless)))
  | c :: rest => do
    let first ← m.operand c
    let others ← rest.mapM m.operand
    return some (conditionOf (others.foldl .and first).text (decide (effect = .forbid)))

/-- The subject of a Cedar policy, and the clauses that are left for its
condition. The subject of `map_cedar_policy`. -/
def subjectOf (p : Policy) : Except PolicyError (String × List Clause) :=
  match p.head.principal, p.clauses with
  | some c, clauses => .ok (c.entity, clauses)
  | none, [] => .ok (Subject.anyName, [])
  | none, c :: rest => do
    if ← asksAuthentication c then return (Subject.anyAuthenticatedName, rest)
    else return (Subject.anyName, c :: rest)

/-- The IDQL policy of a Cedar policy. Model of `map_cedar_policy`. -/
def Mapping.policyOf (m : Mapping) (p : Policy) : Except PolicyError Idql.Policy := do
  let (subject, clauses) ← subjectOf p
  let condition ← m.fold p.effect clauses
  return { info := { policyId := p.note? idKey,
                     description := p.note? descriptionKey },
           subjects := [subject],
           actions := (p.head.action.map fun a => a.entities.map actionName).getD [],
           object := (p.head.resource.map (·.entity)).getD "",
           condition }

/-- The IDQL policies of a document. Model of `CedarPolicyMapper.to_idql`. -/
def Mapping.policiesOf (m : Mapping) (d : Document) : Except PolicyError (List Idql.Policy) :=
  d.policies.mapM m.policyOf

/-- The IDQL policies of the text of a document. Model of `from_cedar_text`. -/
def Mapping.policiesOfText (m : Mapping) (text : String) :
    Except PolicyError (List Idql.Policy) := do
  m.policiesOf (← Document.parse text)

end PolicyDialects.Cedar
