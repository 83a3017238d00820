import PolicyDialects.Condition
import PolicyDialects.Gcp.Binding
import PolicyDialects.Idql.Policy

/-!
# IDQL policies as IAM bindings

An action `gcp:` with a role gives that role; other actions have no binding
(specification, sections 4.6 and 10.6).

* `bindingsOf` — the bindings that a policy contributes to its object.
* `assignmentsOf` — the bindings of all policies, gathered by object in the
  order in which the objects first get one.
* `policyOf`, `policiesOf` — the policies of bindings.
-/

namespace PolicyDialects.Gcp

open Idql (Policy)

/-- What precedes a role in the name of an action. The constant
`GCP_ACTION_PREFIX`. -/
def rolePrefix : String := "gcp:"

/-- The role that an action names. -/
def role? (action : String) : Option String :=
  (Text.stripPrefix? rolePrefix.toList action.toList).map String.ofList

/-! ## Export -/

/-- The condition of the bindings of a policy. IAM knows no denial. -/
def conditionOf (names : NameMap) (p : Policy) :
    Except PolicyError (Option BindingCondition) :=
  match p.condition with
  | none => .ok none
  | some ⟨_, .deny⟩ =>
    .error (.unsupportedShape "IAM bindings cannot carry a deny condition")
  | some ⟨rule, .allow⟩ => do
    let expression ← Condition.celOfFilter names rule
    return some { expression, title := p.info.policyId, description := p.info.description }

/-- The bindings of a policy, one for each role among its actions. Model of
`GcpBindingMapper.map_policy`. -/
def bindingsOf (names : NameMap) (p : Policy) : Except PolicyError (List Binding) := do
  let condition ← conditionOf names p
  return (p.actions.filterMap role?).map fun role => { role, members := p.subjects, condition }

/-- Adds bindings to a resource, whose assignment is made when there is none. -/
def addBindings (resourceId : String) (bindings : List Binding) :
    List Assignment → List Assignment
  | [] => [{ resourceId, bindings }]
  | a :: rest =>
    if a.resourceId = resourceId then { a with bindings := a.bindings ++ bindings } :: rest
    else a :: addBindings resourceId bindings rest

/-- Adds the bindings of a policy, if it has any. The body of the loop of
`GcpBindingMapper.to_target`. -/
def addPolicy (names : NameMap) (assignments : List Assignment) (p : Policy) :
    Except PolicyError (List Assignment) := do
  let bindings ← bindingsOf names p
  return if bindings.isEmpty then assignments else addBindings p.object bindings assignments

/-- The assignments of policies. Model of `GcpBindingMapper.to_target`. -/
def assignmentsOf (names : NameMap) (policies : List Policy) :
    Except PolicyError (List Assignment) :=
  policies.foldlM (addPolicy names) []

/-! ## Import -/

/-- The policy of a binding on a resource. Model of `map_binding`. -/
def policyOf (names : NameMap) (resourceId : String) (b : Binding) :
    Except PolicyError Policy := do
  let condition ← match b.condition with
    | none => pure none
    | some c => do
      let rule ← Condition.filterTextOfCel names c.expression
      pure (some { rule })
  return { info := { policyId := b.condition.bind (·.title),
                     description := b.condition.bind (·.description) },
           subjects := b.members,
           actions := [rolePrefix ++ b.role],
           object := resourceId,
           condition }

/-- The policies of assignments, one for each binding. Model of
`GcpBindingMapper.to_idql`. -/
def policiesOf (names : NameMap) (assignments : List Assignment) :
    Except PolicyError (List Policy) := do
  let policies ← assignments.mapM fun a => a.bindings.mapM (policyOf names a.resourceId)
  return policies.flatten

end PolicyDialects.Gcp
