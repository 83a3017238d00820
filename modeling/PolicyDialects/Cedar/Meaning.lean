import PolicyDialects.Cedar.Document
import PolicyDialects.Cel.Meaning

/-!
# The meaning of Cedar documents

Which requests a document permits. What a request is about is left open: it is
known by the constraints that match it and by the comparisons that are true.

* `Request` — a request.
* `Clause.holds`, `Policy.applies` — one clause, one policy.
* `Document.permits` — some `permit` policy applies and no `forbid` policy.
-/

namespace PolicyDialects.Cedar

open PolicyDialects.Filter (Comparison)

/-- A request, by what is true of it. -/
structure Request where
  principal : Scope → Bool
  action : ActionScope → Bool
  resource : Scope → Bool
  comparison : Comparison → Bool

/-- Whether a clause holds: the body of `when` is true, that of `unless` is
false. A body that is no condition holds in neither. -/
def Clause.holds (r : Request) (c : Clause) : Bool :=
  match Cel.Tree.parse c.body with
  | .error _ => false
  | .ok body =>
    match c.kind, body.truth? r.comparison with
    | .when, some b => b
    | .unless, some b => !b
    | _, none => false

/-- Whether the slots of a policy match; an open one matches everything. -/
def Head.admits (r : Request) (h : Head) : Bool :=
  h.principal.all r.principal && h.action.all r.action && h.resource.all r.resource

/-- Whether a policy applies: its slots match and all its clauses hold. -/
def Policy.applies (r : Request) (p : Policy) : Bool :=
  p.head.admits r && p.clauses.all (·.holds r)

/-- Whether a policy of an effect applies. -/
def Document.decides (r : Request) (effect : Effect) (d : Document) : Bool :=
  d.policies.any fun p => decide (p.effect = effect) && p.applies r

/-- Whether a document permits a request. -/
def Document.permits (r : Request) (d : Document) : Bool :=
  d.decides r .permit && !d.decides r .forbid

end PolicyDialects.Cedar
