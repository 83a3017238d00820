import PolicyDialects.Error

/-!
# Google Cloud IAM bindings

A binding gives a role on a resource to its members, perhaps under a CEL
condition; an assignment is all bindings of one resource (specification,
sections 6.5 and 10.4).

* `BindingCondition`, `Binding`, `Assignment` — the data.
* `Assignment.toJson`, `Assignment.ofJson?` — the exchange form.
* `Assignment.text`, `Assignment.ofText` — its text; a single binding reads as
  an assignment with an empty resource id.
-/

namespace PolicyDialects.Gcp

/-! ## Data -/

/-- The condition of a binding. Model of `BindingCondition`. -/
structure BindingCondition where
  expression : String
  title : Option String := none
  description : Option String := none
  deriving DecidableEq, Inhabited

/-- A role and who has it. Model of `Binding`. -/
structure Binding where
  role : String
  members : List String := []
  condition : Option BindingCondition := none
  deriving DecidableEq, Inhabited

/-- The bindings of a resource. Model of `GcpBindAssignment`. -/
structure Assignment where
  resourceId : String := ""
  bindings : List Binding := []
  deriving DecidableEq, Inhabited

/-! ## Exchange form -/

/-- The exchange form of a condition. -/
def BindingCondition.toJson (c : BindingCondition) : Json :=
  .partialRecord [("expression", some (.str c.expression)), ("title", c.title.map .str),
    ("description", c.description.map .str)]

/-- The condition of an exchange form. -/
def BindingCondition.ofJson? (j : Json) : Option BindingCondition := do
  match ← j.fields? ["expression", "title", "description"] with
  | [expression, title, description] =>
    return { expression := ← expression.required Json.text?,
             title := ← title.optional Json.text?,
             description := ← description.optional Json.text? }
  | _ => none

/-- The exchange form of a binding. -/
def Binding.toJson (b : Binding) : Json :=
  .partialRecord [("role", some (.str b.role)), ("members", some (.strings b.members)),
    ("condition", b.condition.map BindingCondition.toJson)]

/-- The binding of an exchange form. -/
def Binding.ofJson? (j : Json) : Option Binding := do
  match ← j.fields? ["role", "members", "condition"] with
  | [role, members, condition] =>
    return { role := ← role.required Json.text?,
             members := ← members.defaulted [] (Json.list? Json.text?),
             condition := ← condition.optional BindingCondition.ofJson? }
  | _ => none

/-- The exchange form of an assignment. -/
def Assignment.toJson (a : Assignment) : Json :=
  .record [("resource_id", .str a.resourceId), ("bindings", .array (a.bindings.map Binding.toJson))]

/-- The assignment of an exchange form. -/
def Assignment.ofJson? (j : Json) : Option Assignment := do
  match ← j.fields? ["resource_id", "bindings"] with
  | [resourceId, bindings] =>
    return { resourceId := ← resourceId.defaulted "" Json.text?,
             bindings := ← bindings.defaulted [] (Json.list? Binding.ofJson?) }
  | _ => none

/-- The text of an assignment. Model of `GcpBindAssignment.to_json`. -/
def Assignment.text (a : Assignment) : String := a.toJson.pretty

/-- The deepest nesting of a text that is read. -/
def maxTextDepth : Nat := 127

/-- The tree of a text: its strings are whole, its numbers in range, its depth
bounded, and of two members with one key the later one counts. -/
def treeOfText? (text : String) : Option Json := do
  let j ← Json.read? text
  if j.isPlain ∧ j.depth ≤ maxTextDepth then some j.lastWins else none

/-- The assignment of a text, or the one that consists of a single binding.
Model of `GcpBindAssignment.from_json`. -/
def Assignment.ofText (text : String) : Except PolicyError Assignment :=
  match treeOfText? text with
  | none => .error .malformedJson
  | some j =>
    if (j.get? "bindings").isSome then
      match Assignment.ofJson? j with
      | some a => .ok a
      | none => .error .malformedJson
    else if (j.get? "role").isSome then
      match Binding.ofJson? j with
      | some b => .ok { bindings := [b] }
      | none => .error .malformedJson
    else
      .error (.invalidFormat "expected a binding assignment or a single binding")

end PolicyDialects.Gcp
