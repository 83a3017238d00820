import PolicyDialects.Proofs.Gcp.Grouping

/-!
# IAM bindings there and back

* `roleActions` — the actions of a policy that name a role.
* `returned` — what a policy with one of its actions comes back as.
* `Assignment.reworded` — an assignment with its conditions respelled.

Results:

* `role?_eq_some_iff`: which actions name a role.
* `policiesOf_eq_ok_iff`: what import makes of assignments.
* `policiesOf_assignmentsOf`: policies exported and imported again.
* `assignmentsOf_policiesOf`: assignments imported and exported again.
-/

namespace PolicyDialects.Gcp

open Idql (Policy)

/-! ## Roles -/

theorem role?_eq_some_iff {action role : String} :
    role? action = some role ↔ action = rolePrefix ++ role := by
  rw [role?, Option.map_eq_some_iff]
  constructor
  · rintro ⟨cs, hcs, rfl⟩
    rw [← String.toList_inj, Text.stripPrefix?_eq_some_iff.mp hcs, String.toList_append,
      String.toList_ofList]
  · rintro rfl
    exact ⟨role.toList, Text.stripPrefix?_eq_some_iff.mpr String.toList_append,
      String.ofList_toList⟩

/-- The actions of a policy that name a role, each with the policy. -/
def roleActions (p : Policy) : List (Policy × String) :=
  (p.actions.filter fun action => (role? action).isSome).map fun action => (p, action)

theorem roleActions_eq (p : Policy) :
    roleActions p = (p.actions.filterMap role?).map fun role => (p, rolePrefix ++ role) := by
  rw [roleActions]
  induction p.actions with
  | nil => rfl
  | cons action actions ih =>
    rw [List.filter_cons, List.filterMap_cons]
    cases hrole : role? action with
    | none => simpa [hrole] using ih
    | some role => simpa [hrole, role?_eq_some_iff.mp hrole] using ih

/-! ## Import -/

/-- The condition of a policy for an expression. -/
def importedCondition (names : NameMap) (expression : String) :
    Except PolicyError Idql.Condition := do
  return { rule := ← Condition.filterTextOfCel names expression }

theorem policyOf_eq (names : NameMap) (resourceId : String) (b : Binding) :
    policyOf names resourceId b =
      (b.condition.mapM fun c => importedCondition names c.expression).map fun condition =>
        { info := { policyId := b.condition.bind (·.title),
                    description := b.condition.bind (·.description) },
          subjects := b.members,
          actions := [rolePrefix ++ b.role],
          object := resourceId,
          condition } := by
  obtain ⟨role, members, _ | c⟩ := b
  · rfl
  · dsimp only [policyOf]
    rw [Option.mapM_some, importedCondition]
    cases Condition.filterTextOfCel names c.expression <;> rfl

/-- What import makes of assignments: the policies of their bindings. -/
theorem policiesOf_eq_ok_iff {names : NameMap} {as : List Assignment} {ps : List Policy} :
    policiesOf names as = .ok ps ↔
      (as.flatMap Assignment.placed).mapM (fun x => policyOf names x.1 x.2) = .ok ps := by
  have hplaced : ∀ (a : Assignment) (qs : List Policy),
      a.placed.mapM (fun x => policyOf names x.1 x.2) = .ok qs ↔
        ∃ ps, a.bindings.mapM (policyOf names a.resourceId) = .ok ps ∧ qs = ps := by
    intro a qs
    rw [Assignment.placed, List.mapM_map]
    constructor
    · exact fun h => ⟨qs, h, rfl⟩
    · rintro ⟨ps, h, rfl⟩
      exact h
  rw [mapM_flatMap_eq_ok hplaced, policiesOf, bind_eq_ok]
  refine exists_congr fun pss => and_congr_right fun _ => ?_
  rw [List.flatMap_id']
  exact ok_eq_ok

theorem object_of_policyOf {names : NameMap} {resourceId : String} {b : Binding} {p : Policy}
    (h : policyOf names resourceId b = .ok p) : p.object = resourceId := by
  rw [policyOf_eq] at h
  obtain ⟨condition, -, rfl⟩ := map_eq_ok.mp h
  rfl

/-! ## Policies there and back -/

/-- The policy that a policy with one of its actions comes back as: its condition
in canonical spelling, and what is known about it only next to a condition. -/
def returned (names : NameMap) (p : Policy) (action : String) : Except PolicyError Policy := do
  let condition ← p.condition.mapM fun c => do
    importedCondition names (← Condition.celOfFilter names c.rule)
  return { info := { policyId := p.condition.bind fun _ => p.info.policyId,
                     description := p.condition.bind fun _ => p.info.description },
           subjects := p.subjects,
           actions := [action],
           object := p.object,
           condition }

theorem policyOf_eq_returned {names : NameMap} {p : Policy} {condition : Option BindingCondition}
    (h : conditionOf names p = .ok condition) (role : String) :
    policyOf names p.object ⟨role, p.subjects, condition⟩ =
      returned names p (rolePrefix ++ role) := by
  obtain ⟨info, subjects, actions, object, _ | ⟨rule, _ | _⟩⟩ := p
  · obtain rfl := Except.ok.inj h
    rfl
  · obtain ⟨expression, hexpression, h⟩ := bind_eq_ok.mp h
    obtain rfl := Except.ok.inj h
    dsimp only [returned]
    rw [policyOf_eq, Option.mapM_some, Option.mapM_some, hexpression]
    dsimp only [Bind.bind, Except.bind]
    cases importedCondition names expression <;> rfl
  · cases h

/-- The bindings of a policy are read back as its role actions are. -/
theorem forall₂_placed_roleActions {names : NameMap} {p : Policy} {a : Assignment}
    (h : assignmentOf names p = .ok a) :
    List.Forall₂ (fun x y => policyOf names x.1 x.2 = returned names y.1 y.2)
      a.placed (roleActions p) := by
  obtain ⟨bs, hbs, rfl⟩ := assignmentOf_eq_ok_iff.mp h
  obtain ⟨condition, hcondition, hbs⟩ := bind_eq_ok.mp hbs
  obtain rfl := Except.ok.inj hbs
  rw [roleActions_eq, Assignment.placed, List.map_map, List.forall₂_map_left_iff,
    List.forall₂_map_right_iff, List.forall₂_same]
  exact fun role _ => policyOf_eq_returned hcondition role

/-- Policies that are exported have each resource once, with bindings; imported
again, they come back action by action, gathered by object. -/
theorem policiesOf_assignmentsOf {names : NameMap} {ps : List Policy} {as : List Assignment}
    (h : assignmentsOf names ps = .ok as) :
    (as.map (·.resourceId)).Nodup ∧ (∀ a ∈ as, a.bindings ≠ []) ∧
      ∀ qs, policiesOf names as = .ok qs ↔
        ∃ singles, (ps.flatMap roleActions).mapM (fun x => returned names x.1 x.2) = .ok singles ∧
          qs = gathered (·.object) singles := by
  obtain ⟨bs, hbs, rfl⟩ := assignmentsOf_eq_ok_iff.mp h
  refine ⟨nodup_merged _, bindings_ne_nil_of_mem_merged bindings_ne_nil_of_mem_filter,
    fun qs => ?_⟩
  have hsingles : (bs.flatMap Assignment.placed).mapM (fun x => policyOf names x.1 x.2) =
      (ps.flatMap roleActions).mapM fun x => returned names x.1 x.2 :=
    mapM_eq_mapM (List.rel_flatMap (mapM_eq_ok.mp hbs).flip
      fun a p h => forall₂_placed_roleActions h)
  rw [policiesOf_eq_ok_iff, flatMap_placed_merged bindings_ne_nil_of_mem_filter,
    flatMap_placed_filter, ← hsingles]
  exact mapM_gathered_eq_ok fun x p h => object_of_policyOf h

/-- A policy that comes back as it is. -/
def viewerPolicy : Policy :=
  { subjects := ["user:a"], actions := ["gcp:roles/viewer"], object := "projects/p1" }

/-- A policy with a condition and with an action that names no role. -/
def editorPolicy : Policy :=
  { info := { policyId := some "present" }, subjects := ["user:b"],
    actions := ["view", "gcp:roles/editor"], object := "projects/p2",
    condition := some { rule := "a  PR" } }

/-- A policy with a name and no condition. -/
def ownerPolicy : Policy :=
  { info := { policyId := some "owner" }, subjects := ["user:c"],
    actions := ["gcp:roles/owner"], object := "projects/p1" }

/-- The assignments of the three policies. -/
def interleavedAssignments : List Assignment :=
  [⟨"projects/p1", [{ role := "roles/viewer", members := ["user:a"] },
                    { role := "roles/owner", members := ["user:c"] }]⟩,
   ⟨"projects/p2", [{ role := "roles/editor", members := ["user:b"],
                      condition := some { expression := "has(a)", title := some "present" } }]⟩]

theorem policiesOf_interleavedAssignments :
    assignmentsOf .identity [viewerPolicy, editorPolicy, ownerPolicy] =
        .ok interleavedAssignments ∧
      policiesOf .identity interleavedAssignments = .ok
        [viewerPolicy, { ownerPolicy with info := {} },
         { editorPolicy with actions := ["gcp:roles/editor"],
                             condition := some { rule := "a pr" } }] := by
  have hexport : assignmentsOf .identity [viewerPolicy, editorPolicy, ownerPolicy] =
      .ok interleavedAssignments := by decide +kernel
  obtain ⟨-, -, himport⟩ := policiesOf_assignmentsOf hexport
  refine ⟨hexport, (himport _).mpr ⟨
    [viewerPolicy, { editorPolicy with actions := ["gcp:roles/editor"],
                                       condition := some { rule := "a pr" } },
     { ownerPolicy with info := {} }], ?_, ?_⟩⟩
  · decide +kernel
  · decide +kernel

/-! ## Assignments there and back -/

/-- A condition whose expression went through a filter. -/
def BindingCondition.reworded (names : NameMap) (c : BindingCondition) :
    Except PolicyError BindingCondition := do
  let rule ← Condition.filterTextOfCel names c.expression
  return { c with expression := ← Condition.celOfFilter names rule }

/-- A binding whose condition went through a filter. -/
def Binding.reworded (names : NameMap) (b : Binding) : Except PolicyError Binding := do
  return { b with condition := ← b.condition.mapM (BindingCondition.reworded names) }

/-- An assignment whose conditions went through filters. -/
def Assignment.reworded (names : NameMap) (a : Assignment) : Except PolicyError Assignment := do
  return { a with bindings := ← a.bindings.mapM (Binding.reworded names) }

theorem conditionOf_policyOf {names : NameMap} {resourceId : String} {b : Binding} {p : Policy}
    (h : policyOf names resourceId b = .ok p) :
    conditionOf names p = b.condition.mapM (BindingCondition.reworded names) := by
  rw [policyOf_eq] at h
  obtain ⟨condition, hcondition, rfl⟩ := map_eq_ok.mp h
  obtain ⟨role, members, _ | c⟩ := b
  · obtain rfl := Except.ok.inj hcondition
    rfl
  · obtain ⟨rule, hrule, rfl⟩ : ∃ rule, Condition.filterTextOfCel names c.expression = .ok rule ∧
        condition = some { rule } := by
      rw [Option.mapM_some] at hcondition
      obtain ⟨_, himported, rfl⟩ := map_eq_ok.mp hcondition
      obtain ⟨rule, hrule, himported⟩ := bind_eq_ok.mp himported
      exact ⟨rule, hrule, congrArg some (Except.ok.inj himported).symm⟩
    rw [Option.mapM_some, BindingCondition.reworded, hrule]
    dsimp only [conditionOf, Bind.bind, Except.bind]
    cases Condition.celOfFilter names rule <;> rfl

/-- The policy of a binding is exported as this binding alone. -/
theorem assignmentOf_policyOf {names : NameMap} {resourceId : String} {b : Binding} {p : Policy}
    (h : policyOf names resourceId b = .ok p) :
    assignmentOf names p = (b.reworded names).map fun b => ⟨resourceId, [b]⟩ := by
  have hcondition := conditionOf_policyOf h
  rw [policyOf_eq] at h
  obtain ⟨condition, -, rfl⟩ := map_eq_ok.mp h
  rw [assignmentOf, bindingsOf, hcondition, Binding.reworded]
  have hrole : [rolePrefix ++ b.role].filterMap role? = [b.role] := by
    rw [List.filterMap_cons, role?_eq_some_iff.mpr rfl, List.filterMap_nil]
  dsimp only
  rw [hrole]
  cases b.condition.mapM (BindingCondition.reworded names) <;> rfl

theorem mapM_placed_eq_ok_iff {names : NameMap} (a : Assignment) (as : List Assignment) :
    a.placed.mapM (fun x => (x.2.reworded names).map fun b => (⟨x.1, [b]⟩ : Assignment)) = .ok as ↔
      ∃ a', a.reworded names = .ok a' ∧ as = a'.alone := by
  rw [Assignment.placed, List.mapM_map]
  dsimp only [Function.comp_def]
  rw [mapM_map_eq_ok]
  constructor
  · rintro ⟨bs, hbs, rfl⟩
    exact ⟨⟨a.resourceId, bs⟩, by rw [Assignment.reworded, hbs]; rfl, rfl⟩
  · rintro ⟨a', ha, rfl⟩
    obtain ⟨bs, hbs, ha⟩ := bind_eq_ok.mp ha
    obtain rfl := Except.ok.inj ha
    exact ⟨bs, hbs, rfl⟩

/-- Assignments that are imported and exported again are the same, their conditions
respelled, with those of one resource merged. One without bindings leaves no
trace: it does not keep the place of its resource either. -/
theorem assignmentsOf_policiesOf {names : NameMap} {as : List Assignment} {ps : List Policy}
    (h : policiesOf names as = .ok ps) {as' : List Assignment} :
    assignmentsOf names ps = .ok as' ↔
      ∃ bs, as.mapM (Assignment.reworded names) = .ok bs ∧
        as' = merged (bs.filter (·.bindings ≠ [])) := by
  have hps := mapM_eq_ok.mp (policiesOf_eq_ok_iff.mp h)
  have hback : ps.mapM (assignmentOf names) = (as.flatMap Assignment.placed).mapM
      fun x => (x.2.reworded names).map fun b => (⟨x.1, [b]⟩ : Assignment) :=
    mapM_eq_mapM (hps.flip.imp fun p x hp => assignmentOf_policyOf hp)
  rw [assignmentsOf_eq_ok_iff, hback]
  simp only [mapM_flatMap_eq_ok mapM_placed_eq_ok_iff]
  constructor
  · rintro ⟨_, ⟨bs, hbs, rfl⟩, rfl⟩
    exact ⟨bs, hbs, merged_flatMap_alone bs⟩
  · rintro ⟨bs, hbs, rfl⟩
    exact ⟨_, ⟨bs, hbs, rfl⟩, (merged_flatMap_alone bs).symm⟩

/-- An assignment without bindings, two of one resource, and a condition that is not
spelled as export spells it. -/
def scatteredAssignments : List Assignment :=
  [⟨"projects/p3", []⟩, ⟨"projects/p1", [{ role := "roles/viewer", members := ["user:a"] }]⟩,
   ⟨"projects/p2", [{ role := "roles/editor",
                      condition := some { expression := "has( a )", title := some "t" } }]⟩,
   ⟨"projects/p1", [{ role := "roles/owner", members := ["user:c"] }]⟩]

/-- The policies of the scattered assignments. -/
def scatteredPolicies : List Policy :=
  [viewerPolicy,
   { info := { policyId := some "t" }, actions := ["gcp:roles/editor"], object := "projects/p2",
     condition := some { rule := "a pr" } },
   { ownerPolicy with info := {} }]

theorem assignmentsOf_scatteredPolicies :
    policiesOf .identity scatteredAssignments = .ok scatteredPolicies ∧
      assignmentsOf .identity scatteredPolicies = .ok
        [⟨"projects/p1", [{ role := "roles/viewer", members := ["user:a"] },
                          { role := "roles/owner", members := ["user:c"] }]⟩,
         ⟨"projects/p2", [{ role := "roles/editor",
                            condition := some { expression := "has(a)",
                                                title := some "t" } }]⟩] := by
  have himport : policiesOf .identity scatteredAssignments = .ok scatteredPolicies := by
    decide +kernel
  refine ⟨himport, (assignmentsOf_policiesOf himport).mpr ⟨
    [⟨"projects/p3", []⟩, ⟨"projects/p1", [{ role := "roles/viewer", members := ["user:a"] }]⟩,
     ⟨"projects/p2", [{ role := "roles/editor",
                        condition := some { expression := "has(a)", title := some "t" } }]⟩,
     ⟨"projects/p1", [{ role := "roles/owner", members := ["user:c"] }]⟩], ?_, ?_⟩⟩
  · decide +kernel
  · decide +kernel

end PolicyDialects.Gcp
