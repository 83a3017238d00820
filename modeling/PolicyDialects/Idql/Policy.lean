import PolicyDialects.Error
import PolicyDialects.Text.Shown

/-!
# IDQL policies

A policy says which subjects may perform which actions on an object, and under
which condition (specification, section 6.1).

* `Meta`, `ConditionAction`, `Condition`, `Policy` — the data.
* `Policy.shown` — a policy as one line for people.
* `Policy.toJson`, `Policy.ofJson?` — the exchange form of a policy, and
  `policiesText`, `policiesOfText`, that of a whole document.
-/

namespace PolicyDialects.Idql

/-! ## Data -/

/-- The version of policies that are made by an import. The constant
`IDQL_VERSION`. -/
def version : String := "0.7"

/-- What is known about a policy. Model of `MetaInfo`. -/
structure Meta where
  version : String := Idql.version
  policyId : Option String := none
  description : Option String := none
  deriving DecidableEq, Inhabited

/-- What a condition does when its rule holds. Model of `ConditionAction`. -/
inductive ConditionAction where
  | allow | deny
  deriving DecidableEq, Inhabited

namespace ConditionAction

/-- The keyword of an action. -/
def keyword : ConditionAction → String
  | .allow => "allow"
  | .deny => "deny"

/-- The action of a keyword in any case. -/
def ofKeyword? (word : String) : Option ConditionAction :=
  [ConditionAction.allow, .deny].find? fun a => Text.sameFold word a.keyword

end ConditionAction

/-- A filter rule and what it does when it holds. Model of `ConditionInfo`. -/
structure Condition where
  rule : String
  action : ConditionAction := .allow
  deriving DecidableEq, Inhabited

/-- A policy; without a condition it always applies. Model of `PolicyInfo`. -/
structure Policy where
  info : Meta := {}
  subjects : List String := []
  actions : List String := []
  object : String := ""
  condition : Option Condition := none
  deriving DecidableEq, Inhabited

/-- A policy as one line for people. Model of `PolicyInfo.fmt`. -/
def Policy.shown (p : Policy) : String :=
  let condition := match p.condition with
    | some c => " (" ++ c.action.keyword ++ " if " ++ c.rule ++ ")"
    | none => ""
  Text.shownList p.subjects ++ " may " ++ Text.shownList p.actions ++ " on '" ++ p.object ++ "'" ++
    condition

/-! ## Exchange form -/

/-- The exchange form of the information on a policy. -/
def Meta.toJson (m : Meta) : Json :=
  .partialRecord [("version", some (.str m.version)), ("policyId", m.policyId.map .str),
    ("description", m.description.map .str)]

/-- The information on a policy of an exchange form. -/
def Meta.ofJson? (j : Json) : Option Meta := do
  match ← j.fields? ["version", "policyId", "description"] with
  | [version, policyId, description] =>
    return { version := ← version.required Json.text?,
             policyId := ← policyId.optional Json.text?,
             description := ← description.optional Json.text? }
  | _ => none

/-- The exchange form of an action. -/
def ConditionAction.toJson (a : ConditionAction) : Json := .str a.keyword

/-- The action of an exchange form. -/
def ConditionAction.ofJson? (j : Json) : Option ConditionAction := do
  let name ← j.unit?
  if name = "allow" then some .allow else if name = "deny" then some .deny else none

/-- The exchange form of a condition. -/
def Condition.toJson (c : Condition) : Json :=
  .record [("rule", .str c.rule), ("action", c.action.toJson)]

/-- The condition of an exchange form. -/
def Condition.ofJson? (j : Json) : Option Condition := do
  match ← j.fields? ["rule", "action"] with
  | [rule, action] =>
    return { rule := ← rule.required Json.text?,
             action := ← action.defaulted .allow ConditionAction.ofJson? }
  | _ => none

/-- The exchange form of a policy. -/
def Policy.toJson (p : Policy) : Json :=
  .partialRecord [("meta", some p.info.toJson), ("subjects", some (.strings p.subjects)),
    ("actions", some (.strings p.actions)), ("object", some (.str p.object)),
    ("condition", p.condition.map Condition.toJson)]

/-- The policy of an exchange form. -/
def Policy.ofJson? (j : Json) : Option Policy := do
  match ← j.fields? ["meta", "subjects", "actions", "object", "condition"] with
  | [info, subjects, actions, object, condition] =>
    return { info := ← info.defaulted {} Meta.ofJson?,
             subjects := ← subjects.defaulted [] (Json.list? Json.text?),
             actions := ← actions.defaulted [] (Json.list? Json.text?),
             object := ← object.defaulted "" Json.text?,
             condition := ← condition.optional Condition.ofJson? }
  | _ => none

/-- The exchange form of a document. -/
def policiesJson (policies : List Policy) : Json :=
  .record [("policies", .array (policies.map Policy.toJson))]

/-- The text of a document. Model of `Policies.to_json`. -/
def policiesText (policies : List Policy) : String := (policiesJson policies).pretty

/-- The policies of the text of a document. Model of `Policies.from_json`. -/
def policiesOfText (text : String) : Except PolicyError (List Policy) :=
  let policies? : Option (List Policy) := do
    match ← (← Json.read? text).fields? ["policies"] with
    | [policies] => policies.required (Json.list? Policy.ofJson?)
    | _ => none
  match policies? with
  | some policies => .ok policies
  | none => .error .malformedJson

end PolicyDialects.Idql
