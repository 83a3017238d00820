import PolicyDialects.Proofs.Cedar.Recovery

/-!
# Actions through IDQL

Import takes an entity of type `Action` apart and keeps its id as the name of the
action, if the id has no quote in it. Export puts names together again. It takes a
text with `::` in it for an entity, and the start `cedar:` for a mark.

* `entityOf` — the entity with a path and an id.
* `SurvivesAsAction` — the paths and ids that both agree on.

Results:

* `actionEntity_actionName_eq_iff`: the entities that come back as they were.
* `entities_throughIdql`: the actions of a policy after import and export.
* `actionEntity_actionName_entityOf_iff`: both together, for paths and ids.
* `actionEntity_actionName_changed`: ids and a path for which they disagree.
-/

namespace PolicyDialects.Cedar

open Text

/-! ## Texts of entities -/

theorem actionEntity_of_marked {action : String} {rest : List Char}
    (h : stripPrefix? actionPrefix.toList action.toList = some rest) :
    actionEntity action = String.ofList
      (if occursIn [':', ':'] rest then rest else actionEntityStart ++ rest ++ ['"']) := by
  rw [actionEntity, h, Option.getD_some]

/-- The entity of an id is the one that it was the id of exactly if export takes
the id for a name. -/
theorem actionEntity_eq_iff_isActionName {id : List Char} :
    actionEntity (String.ofList id) = String.ofList (actionEntityStart ++ id ++ ['"']) ↔
      IsActionName id := by
  constructor
  · intro h
    have hname : stripPrefix? actionPrefix.toList id = none := by
      rw [Option.eq_none_iff_forall_ne_some]
      intro rest hrest
      have hlong := congrArg List.length (stripPrefix?_eq_some_iff.mp hrest)
      rw [actionEntity_of_marked (by rwa [String.toList_ofList]), String.ofList_inj] at h
      -- without the mark the text is too short
      have hlength := congrArg List.length h
      have hmark : actionPrefix.toList.length = 6 := by decide
      split_ifs at hlength <;>
        simp only [List.length_append, hmark] at hlong hlength <;> omega
    refine ⟨hname, ?_⟩
    rw [Bool.eq_false_iff]
    intro hcolons
    rw [actionEntity_of_occursIn (by rwa [String.toList_ofList]) (by rwa [String.toList_ofList]),
      String.ofList_inj] at h
    have hlength := congrArg List.length h
    simp only [List.length_append, List.length_singleton] at hlength
    omega
  · intro h
    have hname : IsActionName (String.ofList id).toList := by rwa [String.toList_ofList]
    rw [actionEntity_of_isActionName hname, String.toList_ofList]

/-- Export keeps an entity exactly if it is not marked. -/
theorem actionEntity_eq_self_iff {entity : String}
    (h : occursIn [':', ':'] entity.toList = true) :
    actionEntity entity = entity ↔ stripPrefix? actionPrefix.toList entity.toList = none := by
  constructor
  · intro hself
    rw [Option.eq_none_iff_forall_ne_some]
    intro rest hrest
    have htext := stripPrefix?_eq_some_iff.mp hrest
    rw [actionEntity_of_marked hrest, ← String.toList_inj, String.toList_ofList, htext] at hself
    split_ifs at hself
    · have hlength := congrArg List.length hself
      have hmark : actionPrefix.toList.length = 6 := by decide
      rw [List.length_append, hmark] at hlength
      omega
    · -- the entity of a name starts with another letter than the mark
      have hhead := congrArg List.head? hself
      have hne : actionEntityStart.head? ≠ actionPrefix.toList.head? := by decide
      exact hne hhead
  · intro hmark
    exact actionEntity_of_occursIn hmark h

/-- An entity comes back as it was exactly if it is not marked and its id, if its
type is `Action`, was left in quotes or is the name of an action. -/
theorem actionEntity_actionName_eq_iff {entity : String}
    (h : occursIn [':', ':'] entity.toList = true) :
    actionEntity (actionName entity) = entity ↔
      stripPrefix? actionPrefix.toList entity.toList = none ∧
        ∀ id ∈ actionId? entity, '"' ∈ id ∨ IsActionName id := by
  cases hid : actionId? entity with
  | none =>
    rw [actionName_of_eq_none hid, actionEntity_eq_self_iff h]
    simp
  | some id =>
    have hentity := actionId?_eq_some_iff.mp hid
    have hmark : stripPrefix? actionPrefix.toList entity.toList = none := by
      rw [hentity, String.toList_ofList]
      rfl
    rw [actionName_of_eq_some hid]
    split_ifs with hquote
    · rw [actionEntity_eq_self_iff h]
      simp [hmark, hquote]
    · conv_lhs => rhs; rw [hentity]
      rw [actionEntity_eq_iff_isActionName]
      simp [hmark, hquote]

/-! ## Paths and ids -/

/-- The entity with a path and an id, as it is written. -/
def entityOf (path id : String) : String := path ++ "::\"" ++ id ++ "\""

theorem toList_entityOf (path id : String) :
    (entityOf path id).toList = path.toList ++ [':', ':'] ++ '"' :: (id.toList ++ ['"']) := by
  simp [entityOf]

theorem occursIn_entityOf (path id : String) :
    occursIn [':', ':'] (entityOf path id).toList = true := by
  rw [toList_entityOf]
  exact occursIn_append _ _ _

section

variable {path id : String}

theorem stripPrefix?_entityOf :
    stripPrefix? actionPrefix.toList (entityOf path id).toList = none ↔
      stripPrefix? actionPrefix.toList (path.toList ++ [':', ':']) = none := by
  rw [toList_entityOf]
  exact stripPrefix?_append_cons_eq_none_iff (by decide)

/-- The id of an entity is its id as an action if its path is `Action`. -/
theorem actionId?_entityOf (hpath : '"' ∉ path.toList) {cs : List Char} :
    actionId? (entityOf path id) = some cs ↔ path = "Action" ∧ cs = id.toList := by
  have htext : actionEntityStart ++ cs ++ ['"'] =
      "Action".toList ++ [':', ':'] ++ '"' :: (cs ++ ['"']) := by
    have hstart : actionEntityStart = "Action".toList ++ [':', ':'] ++ ['"'] := by decide
    rw [hstart]
    simp
  have hfront : '"' ∉ path.toList ++ [':', ':'] := by simp [hpath]
  have hfront' : '"' ∉ "Action".toList ++ [':', ':'] := by decide
  rw [actionId?_eq_some_iff, ← String.toList_inj, String.toList_ofList, toList_entityOf, htext]
  constructor
  · intro h
    -- both texts go up to their first quote in the same way
    have hsame := congrArg (List.takeWhile (· != '"')) h
    rw [takeWhile_ne_append hfront, takeWhile_ne_append hfront'] at hsame
    have hname := List.append_cancel_right hsame
    rw [hname] at h
    have hrest := (List.cons.inj (List.append_cancel_left h)).2
    exact ⟨String.toList_inj.mp hname, (List.append_cancel_right hrest).symm⟩
  · rintro ⟨rfl, rfl⟩
    rfl

/-- Import and export agree on an entity: its first name is not read as the mark
for Cedar and, if it is of type `Action`, its id is left in quotes or is taken
for a name. -/
structure SurvivesAsAction (path id : String) : Prop where
  unmarked : stripPrefix? actionPrefix.toList (path.toList ++ [':', ':']) = none
  id : path = "Action" → '"' ∈ id.toList ∨ IsActionName id.toList

instance : Decidable (SurvivesAsAction path id) :=
  decidable_of_iff (stripPrefix? actionPrefix.toList (path.toList ++ [':', ':']) = none ∧
      (path = "Action" → '"' ∈ id.toList ∨ IsActionName id.toList))
    ⟨fun h => ⟨h.1, h.2⟩, fun h => ⟨h.unmarked, h.id⟩⟩

end

/-! ## Policies -/

theorem map_entities_actionScope {actions : List String} (h : actions ≠ []) :
    (actionScope actions).map ActionScope.entities = some (actions.map actionEntity) := by
  match actions with
  | [] => exact absurd rfl h
  | [_] => rfl
  | _ :: _ :: _ => rfl

/-- Import and export take the entities of a constraint to actions one by one. -/
theorem Mapping.entities_throughIdql {m : Mapping} {p : Policy} {q : Idql.Policy}
    {rs : List Policy} {s : ActionScope} (hs : p.head.action = some s) (hne : s.entities ≠ [])
    (hq : m.policyOf p = .ok q) (hrs : m.cedarOf q = .ok rs) :
    ∀ r ∈ rs, r.head.action.map ActionScope.entities =
      some (s.entities.map fun e => actionEntity (actionName e)) := by
  have hactions : q.actions = s.entities.map actionName := by
    obtain ⟨⟨subject, clauses⟩, -, h⟩ := bind_eq_ok.mp hq
    obtain ⟨condition, -, h⟩ := bind_eq_ok.mp h
    cases h
    simp [hs]
  obtain ⟨condition, -, rfl⟩ := m.cedarOf_eq_ok.mp hrs
  intro r hr
  obtain ⟨subject, -, rfl⟩ := List.mem_map.mp hr
  have hnames : s.entities.map actionName ≠ [] := by simpa using hne
  rw [m.action_cedarPolicy, hactions, map_entities_actionScope hnames, List.map_map]
  rfl

/-- An entity with a path and an id comes back as it was exactly if import and
export agree on it, by itself and in every constraint to actions of a policy. -/
theorem actionEntity_actionName_entityOf_iff {path id : String} (hpath : '"' ∉ path.toList) :
    (actionEntity (actionName (entityOf path id)) = entityOf path id ↔
        SurvivesAsAction path id) ∧
      ∀ (m : Mapping) (p : Policy) (q : Idql.Policy) (rs : List Policy) (s : ActionScope),
        p.head.action = some s → m.policyOf p = .ok q → m.cedarOf q = .ok rs →
          ∀ (k : Nat), s.entities[k]? = some (entityOf path id) → ∀ r ∈ rs, ∃ s',
            r.head.action = some s' ∧ s'.entities.length = s.entities.length ∧
              (s'.entities[k]? = some (entityOf path id) ↔ SurvivesAsAction path id) := by
  have hiff : actionEntity (actionName (entityOf path id)) = entityOf path id ↔
      SurvivesAsAction path id := by
    rw [actionEntity_actionName_eq_iff (occursIn_entityOf path id), stripPrefix?_entityOf]
    simp only [Option.mem_def, actionId?_entityOf hpath]
    constructor
    · rintro ⟨hmark, hid⟩
      exact ⟨hmark, fun hkind => hid id.toList ⟨hkind, rfl⟩⟩
    · rintro ⟨hmark, hid⟩
      refine ⟨hmark, ?_⟩
      rintro cs ⟨hkind, rfl⟩
      exact hid hkind
  refine ⟨hiff, ?_⟩
  intro m p q rs s hs hq hrs k hk r hr
  have hne : s.entities ≠ [] := by
    rintro hnil
    rw [hnil] at hk
    cases hk
  obtain ⟨s', hs', hentities⟩ :=
    Option.map_eq_some_iff.mp (m.entities_throughIdql hs hne hq hrs r hr)
  refine ⟨s', hs', by rw [hentities, List.length_map], ?_⟩
  rw [hentities, List.getElem?_map, hk, Option.map_some, Option.some_inj]
  exact hiff

/-- A policy about two actions, of which the second has colons and a quote in its
id. -/
def quotedActions : Policy where
  notes := []
  effect := .permit
  head := {
    principal := none
    action := some (.in ["Action::\"view\"", entityOf "Action" "cedar:a::\\\"b"])
    resource := none
  }
  clauses := []

/-- The id stays in quotes, so that the entity comes back. -/
theorem entities_quotedActions :
    '"' ∉ "Action".toList ∧ SurvivesAsAction "Action" "cedar:a::\\\"b" ∧
      actionEntity (actionName (entityOf "Action" "cedar:a::\\\"b")) =
        entityOf "Action" "cedar:a::\\\"b" ∧
      ∃ q rs s, ({} : Mapping).policyOf quotedActions = .ok q ∧
        ({} : Mapping).cedarOf q = .ok rs ∧ quotedActions.head.action = some s ∧
        s.entities[1]? = some (entityOf "Action" "cedar:a::\\\"b") ∧
        ∀ r ∈ rs, ∃ s', r.head.action = some s' ∧ s'.entities.length = 2 ∧
          s'.entities[1]? = some (entityOf "Action" "cedar:a::\\\"b") := by
  have hpath : '"' ∉ "Action".toList := by decide
  have hsurvives : SurvivesAsAction "Action" "cedar:a::\\\"b" := by decide
  have hthrough := @actionEntity_actionName_entityOf_iff _ "cedar:a::\\\"b" hpath
  have hq : ({} : Mapping).policyOf quotedActions =
      .ok { subjects := ["any"], actions := ["view", entityOf "Action" "cedar:a::\\\"b"],
            object := "" } := by decide +kernel
  refine ⟨hpath, hsurvives, hthrough.1.mpr hsurvives, _, _, _, hq, rfl, rfl, rfl, ?_⟩
  intro r hr
  obtain ⟨s', hs', hlength, hback⟩ := hthrough.2 {} quotedActions _ _ _ rfl hq rfl 1 rfl r hr
  exact ⟨s', hs', hlength, hback.mpr hsurvives⟩

/-- An id with `::` in it is taken for an entity, an id and a path that start like
the mark for Cedar lose it. -/
theorem actionEntity_actionName_changed :
    actionEntity (actionName (entityOf "Action" "a::b")) = "a::b" ∧
      actionEntity (actionName (entityOf "Action" "cedar:view")) = entityOf "Action" "view" ∧
      actionEntity (actionName (entityOf "cedar::Action" "view")) = ":Action::\"view\"" ∧
      (({} : Mapping).policiesOfText "permit(principal, action == Action::\"a::b\", resource);" >>=
          ({} : Mapping).textOf) =
        .ok "permit(principal, action == a::b, resource);" := by
  decide +kernel

end PolicyDialects.Cedar
