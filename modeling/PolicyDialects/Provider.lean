import PolicyDialects.Cedar.Mapping
import PolicyDialects.Gcp.Mapping
import PolicyDialects.Store

/-!
# Policies in a store

A provider keeps policies in a store in its own dialect.

* `Provider.cedarPolicies`, `Provider.setCedarPolicies` — one Cedar policy per
  entry; writing replaces all entries.
* `Provider.gcpPolicies`, `Provider.setGcpPolicies` — one assignment per entry;
  writing updates the entry of a resource in place, adds entries for new
  resources and removes those of resources without bindings.
-/

namespace PolicyDialects.Provider

open Idql (Policy)

/-- Passes the answer or the error of a mapping on. -/
def ofMapping {α : Type} (answer : Except PolicyError α) : StoreM α :=
  MonadExcept.ofExcept answer

/-! ## Cedar -/

/-- The policies of all entries. Model of `CedarProvider.get_policies`. -/
def cedarPolicies (m : Cedar.Mapping) : StoreM (List Policy) := do
  let policies ← (← StoreM.ids).mapM fun id => do
    ofMapping (m.policiesOfText (← StoreM.fetch id))
  return policies.flatten

/-- Replaces all entries; the answer is the number of entries written. Model of
`CedarProvider.set_policies`. -/
def setCedarPolicies (m : Cedar.Mapping) (policies : List Policy) : StoreM Nat := do
  let document ← ofMapping (m.documentOf policies)
  (← StoreM.ids).forM StoreM.delete
  document.policies.forM fun p => do
    let _ ← StoreM.create p.text
  return document.policies.length

/-! ## Google Cloud -/

/-- The assignments of all entries, each with its id. Model of
`GcpProvider.stored_assignments`. -/
def storedAssignments : StoreM (List (String × Gcp.Assignment)) := do
  (← StoreM.ids).mapM fun id => do
    return (id, ← ofMapping (Gcp.Assignment.ofText (← StoreM.fetch id)))

/-- The policies of all entries. Model of `GcpProvider.get_policies`. -/
def gcpPolicies (names : NameMap) : StoreM (List Policy) := do
  ofMapping (Gcp.policiesOf names ((← storedAssignments).map (·.2)))

/-- The last entry of each resource: resource ids with the ids of entries. The
table of `GcpProvider.set_policies`. -/
def latestEntries (stored : List (String × Gcp.Assignment)) : List (String × String) :=
  stored.foldl
    (fun known (id, a) => known.filter (·.1 ≠ a.resourceId) ++ [(a.resourceId, id)]) []

/-- Writes an assignment to the entry of its resource, or to a new one; the
answer is the entries that are not yet written. The body of the loop of
`GcpProvider.set_policies`. -/
def writeAssignment (pending : List (String × String)) (a : Gcp.Assignment) :
    StoreM (List (String × String)) := do
  match pending.find? (·.1 = a.resourceId) with
  | some (_, id) => StoreM.update id a.text
  | none =>
    let _ ← StoreM.create a.text
  return pending.filter (·.1 ≠ a.resourceId)

/-- Replaces the assignments; the answer is the number of assignments. Model of
`GcpProvider.set_policies`. -/
def setGcpPolicies (names : NameMap) (policies : List Policy) : StoreM Nat := do
  let assignments ← ofMapping (Gcp.assignmentsOf names policies)
  let stored ← storedAssignments
  let stale ← assignments.foldlM writeAssignment (latestEntries stored)
  stale.forM fun (_, id) => StoreM.delete id
  return assignments.length

end PolicyDialects.Provider
