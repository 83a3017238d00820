import PolicyDialects.Proofs.Cedar.Lexical
import PolicyDialects.Proofs.Cedar.ThroughIdql
import PolicyDialects.Proofs.Condition.Settling

/-!
# What import finds in exported policies

Export spreads the parts of a policy over annotations, slots and clauses. Import
collects them again, each with its own loss: blanks, the spelling of subjects
that stand for everyone, and marks of actions.

Results:

* `Mapping.cedarOf_eq_ok`: the Cedar policies of a policy, one for each subject.
* `note?_idKey`, `note?_descriptionKey`: id and description come back.
* `actionEntity_actionName`: the entity of an action comes back, unless its name
  is taken for an entity or a marked action.
* `Mapping.subjectScope_cases`: a subject gives a constraint that export finds
  again, or none.
-/

namespace PolicyDialects.Cedar

open Idql (EntityKind Subject)
open PolicyDialects.Condition (filterOfCel isImported_of_filterOfCel)
open PolicyDialects.Filter (Expression)
open Text

/-! ## Policies -/

/-- The Cedar policy of a policy for a subject, with the clause of its
condition. -/
def Mapping.cedarPolicy (m : Mapping) (p : Idql.Policy) (condition : Option Clause)
    (subject : String) : Policy :=
  let (principal, clauses) := m.subjectScope subject
  { notes := notesOf p.info,
    effect := .permit,
    head := { principal, action := actionScope p.actions, resource := m.objectScope p.object },
    clauses := clauses ++ condition.toList }

section

variable {m : Mapping}

theorem Mapping.cedarPolicy_of_subjectScope {p : Idql.Policy} {condition : Option Clause}
    {subject : String} {principal : Option Scope} {clauses : List Clause}
    (h : m.subjectScope subject = (principal, clauses)) :
    m.cedarPolicy p condition subject =
      { notes := notesOf p.info,
        effect := .permit,
        head := { principal, action := actionScope p.actions,
                  resource := m.objectScope p.object },
        clauses := clauses ++ condition.toList } := by
  rw [Mapping.cedarPolicy, h]

section

variable (p : Idql.Policy) (condition : Option Clause) (subject : String)

@[simp] theorem Mapping.notes_cedarPolicy :
    (m.cedarPolicy p condition subject).notes = notesOf p.info := by
  unfold Mapping.cedarPolicy
  cases m.subjectScope subject
  rfl

@[simp] theorem Mapping.principal_cedarPolicy :
    (m.cedarPolicy p condition subject).head.principal = (m.subjectScope subject).1 := by
  unfold Mapping.cedarPolicy
  cases m.subjectScope subject
  dsimp only

@[simp] theorem Mapping.resource_cedarPolicy :
    (m.cedarPolicy p condition subject).head.resource = m.objectScope p.object := by
  unfold Mapping.cedarPolicy
  cases m.subjectScope subject
  dsimp only

@[simp] theorem Mapping.action_cedarPolicy :
    (m.cedarPolicy p condition subject).head.action = actionScope p.actions := by
  unfold Mapping.cedarPolicy
  cases m.subjectScope subject
  rfl

end

theorem Mapping.cedarOf_eq_ok {p : Idql.Policy} {qs : List Policy} :
    m.cedarOf p = .ok qs ↔ ∃ condition, p.condition.mapM m.clauseOf = .ok condition ∧
      qs = (subjectsOf p).map (m.cedarPolicy p condition) :=
  bind_eq_ok.trans (exists_congr fun _ => and_congr_right fun _ => ok_eq_ok)

/-- Each policy of an exported document is that of some policy for a subject. -/
theorem Mapping.exists_of_mem_documentOf {policies : List Idql.Policy} {d : Document}
    (h : m.documentOf policies = .ok d) {q : Policy} (hq : q ∈ d.policies) :
    ∃ p ∈ policies, ∃ condition subject, q = m.cedarPolicy p condition subject := by
  obtain ⟨qss, hmapped, h⟩ := bind_eq_ok.mp h
  cases h
  obtain ⟨qs, hqs, hq⟩ := List.mem_flatten.mp hq
  obtain ⟨p, hp, hcedar⟩ := exists_of_mem_mapM hmapped hqs
  obtain ⟨condition, -, rfl⟩ := m.cedarOf_eq_ok.mp hcedar
  obtain ⟨subject, -, rfl⟩ := List.mem_map.mp hq
  exact ⟨p, hp, condition, subject, rfl⟩

/-! ## Annotations -/

section

variable (info : Idql.Meta) (effect : Effect) (head : Head) (clauses : List Clause)

@[simp] theorem note?_idKey :
    (Policy.mk (notesOf info) effect head clauses).note? idKey = info.policyId := by
  have hkeys : descriptionKey ≠ idKey := by decide
  obtain ⟨_, id, description⟩ := info
  cases id <;> cases description <;> simp [Policy.note?, notesOf, hkeys]

@[simp] theorem note?_descriptionKey :
    (Policy.mk (notesOf info) effect head clauses).note? descriptionKey = info.description := by
  have hkeys : idKey ≠ descriptionKey := by decide
  obtain ⟨_, id, description⟩ := info
  cases id <;> cases description <;> simp [Policy.note?, notesOf, hkeys]

end

/-! ## Actions -/

/-- Export takes the text of an action for its name: it is neither marked for
Cedar nor does it name an entity. -/
structure IsActionName (name : List Char) : Prop where
  unmarked : stripPrefix? actionPrefix.toList name = none
  noEntity : occursIn [':', ':'] name = false

instance : DecidablePred IsActionName := fun name =>
  decidable_of_iff (stripPrefix? actionPrefix.toList name = none ∧
      occursIn [':', ':'] name = false)
    ⟨fun h => ⟨h.1, h.2⟩, fun h => ⟨h.unmarked, h.noEntity⟩⟩

/-- The id of an entity of type `Action`. -/
def actionId? (entity : String) : Option (List Char) :=
  (stripPrefix? actionEntityStart entity.toList).bind (stripSuffix? ['"'])

theorem actionId?_eq_some_iff {entity : String} {id : List Char} :
    actionId? entity = some id ↔ entity = String.ofList (actionEntityStart ++ id ++ ['"']) := by
  have hsuffix : ∀ cs, stripSuffix? ['"'] cs = some id ↔ cs = id ++ ['"'] := by
    intro cs
    rw [stripSuffix?, Option.map_eq_some_iff]
    constructor
    · rintro ⟨rest, hrest, rfl⟩
      rw [← List.reverse_reverse cs, stripPrefix?_eq_some_iff.mp hrest, List.reverse_append]
      rfl
    · rintro rfl
      exact ⟨id.reverse, stripPrefix?_eq_some_iff.mpr List.reverse_append,
        List.reverse_reverse id⟩
  rw [actionId?, Option.bind_eq_some_iff, ← String.toList_inj, String.toList_ofList,
    List.append_assoc]
  constructor
  · rintro ⟨cs, hcs, hid⟩
    rw [stripPrefix?_eq_some_iff.mp hcs, (hsuffix cs).mp hid]
  · exact fun h => ⟨_, stripPrefix?_eq_some_iff.mpr h, (hsuffix _).mpr rfl⟩

theorem actionEntity_of_isActionName {action : String} (h : IsActionName action.toList) :
    actionEntity action = String.ofList (actionEntityStart ++ action.toList ++ ['"']) := by
  unfold actionEntity
  simp only [h.unmarked, Option.getD_none, h.noEntity, Bool.false_eq_true, if_false]

theorem actionEntity_of_occursIn {entity : String}
    (hmark : stripPrefix? actionPrefix.toList entity.toList = none)
    (h : occursIn [':', ':'] entity.toList = true) : actionEntity entity = entity := by
  unfold actionEntity
  simp only [hmark, Option.getD_none, h, if_true, String.ofList_toList]

/-- What export writes for an action names an entity. -/
theorem occursIn_actionEntity (action : String) :
    occursIn [':', ':'] (actionEntity action).toList = true := by
  unfold actionEntity
  dsimp only
  rw [String.toList_ofList]
  split
  · assumption
  · rfl

/-- The entity of an action is not marked for Cedar, and its id, if its type is
`Action`, is the name of an action. -/
structure IsStableAction (entity : String) : Prop where
  unmarked : stripPrefix? actionPrefix.toList entity.toList = none
  id : ∀ id ∈ actionId? entity, IsActionName id

instance : DecidablePred IsStableAction := fun entity =>
  decidable_of_iff (stripPrefix? actionPrefix.toList entity.toList = none ∧
      ∀ id ∈ actionId? entity, IsActionName id)
    ⟨fun h => ⟨h.1, h.2⟩, fun h => ⟨h.unmarked, h.id⟩⟩

theorem actionName_of_eq_none {entity : String} (h : actionId? entity = none) :
    actionName entity = entity := by
  unfold actionId? at h
  rw [actionName, h]

theorem actionName_of_eq_some {entity : String} {id : List Char} (h : actionId? entity = some id) :
    actionName entity = if '"' ∈ id then entity else String.ofList id := by
  unfold actionId? at h
  rw [actionName, h]

theorem actionEntity_actionName {entity : String} (hstable : IsStableAction entity)
    (h : occursIn [':', ':'] entity.toList = true) :
    actionEntity (actionName entity) = entity := by
  have hkept := actionEntity_of_occursIn hstable.unmarked h
  cases hid : actionId? entity with
  | none => rw [actionName_of_eq_none hid, hkept]
  | some id =>
    rw [actionName_of_eq_some hid]
    split
    · exact hkept
    · have hname : IsActionName (String.ofList id).toList := by
        rw [String.toList_ofList]
        exact hstable.id id hid
      rw [actionEntity_of_isActionName hname, String.toList_ofList, ← actionId?_eq_some_iff.mp hid]

theorem actionName_actionEntity {action : String} (h : IsActionName action.toList)
    (hquote : '"' ∉ action.toList) : actionName (actionEntity action) = action := by
  have hid := actionId?_eq_some_iff.mpr (actionEntity_of_isActionName h)
  rw [actionName_of_eq_some hid, if_neg hquote, String.ofList_toList]

theorem keepsActions_actionScope {actions : List String} {s : ActionScope}
    (h : actionScope actions = some s) (hstable : ∀ e ∈ s.entities, IsStableAction e) :
    KeepsActions s := by
  have hback : ∀ a, IsStableAction (actionEntity a) →
      actionEntity (actionName (actionEntity a)) = actionEntity a :=
    fun a ha => actionEntity_actionName ha (occursIn_actionEntity a)
  match actions with
  | [] => cases h
  | [a] =>
    cases h
    exact hback a (hstable _ List.mem_cons_self)
  | a :: b :: rest =>
    cases h
    refine ⟨by simp, fun e he => ?_⟩
    obtain ⟨c, -, rfl⟩ := List.mem_map.mp he
    exact hback c (hstable _ he)

/-! ## Subjects and objects -/

theorem Mapping.keepsScope_trimmed {s : String} (h : (trimmed s).isEmpty = false) :
    m.KeepsScope ⟨m.operatorOf (trimmed s), trimmed s⟩ :=
  ⟨trimmed_trimmed s, h, rfl⟩

/-- The constraint to an object is one that export finds again. -/
theorem Mapping.keepsScope_objectScope {object : String} {c : Scope}
    (h : m.objectScope object = some c) : m.KeepsScope c := by
  rw [m.objectScope_eq] at h
  split_ifs at h with hempty
  cases h
  exact m.keepsScope_trimmed (Bool.eq_false_iff.mpr hempty)

/-- A subject gives a constraint that export finds again and no clause, or no
constraint and, if it is about those who are authenticated, a clause. -/
theorem Mapping.subjectScope_cases (m : Mapping) (subject : String) :
    (∃ c, m.KeepsPrincipal c ∧ m.subjectScope subject = (some c, [])) ∨
      m.subjectScope subject = (none, []) ∨
      m.subjectScope subject = (none, [⟨.when, authenticatedBody⟩]) := by
  rw [m.subjectScope_eq]
  split_ifs with hany hauthenticated
  · exact .inr (.inl rfl)
  · exact .inr (.inr rfl)
  · simp only [Bool.or_eq_true, not_or, Bool.not_eq_true] at hany hauthenticated
    have hkeeps : m.KeepsPrincipal ⟨m.operatorOf (trimmed subject), trimmed subject⟩ :=
      ⟨m.keepsScope_trimmed hany.1, hany.2, hauthenticated.1, hauthenticated.2⟩
    exact .inl ⟨_, hkeeps, rfl⟩

theorem Mapping.keepsPrincipal_of_subjectScope {subject : String} {c : Scope}
    {asked : List Clause} (h : m.subjectScope subject = (some c, asked)) :
    m.KeepsPrincipal c ∧ asked = [] := by
  rcases m.subjectScope_cases subject with ⟨_, hkeeps, hcase⟩ | hcase | hcase <;>
    (rw [hcase] at h; cases h)
  exact ⟨hkeeps, rfl⟩

theorem Mapping.asked_of_subjectScope {subject : String} {asked : List Clause}
    (h : m.subjectScope subject = (none, asked)) :
    asked = [] ∨ asked = [⟨.when, authenticatedBody⟩] := by
  rcases m.subjectScope_cases subject with ⟨_, -, hcase⟩ | hcase | hcase <;>
    (rw [hcase] at h; cases h)
  · exact .inl rfl
  · exact .inr rfl

/-- A clause that asks for authentication is imported as the comparison that says
so, since import leaves no parentheses around a comparison. -/
theorem filterOfCel_of_asksAuthentication {c : Clause} (h : asksAuthentication c = .ok true) :
    c.kind = .when ∧ filterOfCel .identity c.body = .ok authenticated := by
  obtain ⟨hkind, e, he, heq⟩ := exists_of_asksAuthentication h
  have hgroups := (isImported_of_filterOfCel he).groupsOrs
  refine ⟨hkind, he.trans (congrArg Except.ok ?_)⟩
  cases e with
  | group inner => exact absurd (Expression.groupsOrs_group.mp hgroups).1 Bool.false_ne_true
  | _ => exact heq

/-- The clause that export writes asks for authentication. -/
theorem asksAuthentication_authenticatedBody :
    asksAuthentication ⟨.when, authenticatedBody⟩ = .ok true := by decide +kernel

end

end PolicyDialects.Cedar
