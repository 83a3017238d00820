import PolicyDialects.Proofs.Cedar.Export
import PolicyDialects.Proofs.Cedar.Recovery

/-!
# Policies that survive Cedar text

A policy that is spelled as import spells it is written as one Cedar policy,
read as that policy, and imported as the policy it was.

Results:

* `Mapping.IsCanonical`: policies spelled as import spells them.
* `Mapping.fits_of_isCanonical`: their text is read back.
* `Mapping.exists_cedarOf`: their Cedar policies are imported as what they were.
* `Mapping.policiesOfText_textOf`: a list of them survives Cedar text.
-/

namespace PolicyDialects.Cedar

open Idql (EntityKind Subject)
open PolicyDialects.Condition (celOfFilter filterOfCel filterTextOfCel isImported_of_filterOfCel)
open PolicyDialects.Filter (Comparison Expression IsAttributePath)
open Text

/-! ## Canonical policies -/

/-- A subject that import could have found. -/
inductive Mapping.IsCanonicalSubject (m : Mapping) : String → Prop where
  | any : m.IsCanonicalSubject Subject.anyName
  | anyAuthenticated : m.IsCanonicalSubject Subject.anyAuthenticatedName
  | entity {subject : String} (htext : IsEntityText subject) (htrimmed : trimmed subject = subject)
      (hkind : ∃ entity, Subject.classify m.containerTypes subject = .single entity ∨
        Subject.classify m.containerTypes subject = .container entity) :
      m.IsCanonicalSubject subject

/-- An action that export writes as the id of an entity as it is. -/
structure IsCanonicalAction (action : String) : Prop where
  isActionName : IsActionName action.toList
  plain : ∀ c ∈ action.toList, c ≠ '"' ∧ c ≠ '\\'

/-- The condition with the rule that import makes of the clause of those who are
authenticated. -/
def authenticatedCondition : Idql.Condition := ⟨"context.authenticated eq true", .allow⟩

/-- A rule that comes back from CEL as it is. -/
def IsCanonicalRule (rule : String) : Prop :=
  ∃ cel, celOfFilter .identity rule = .ok cel ∧ filterTextOfCel .identity cel = .ok rule

/-- A policy as import makes it. -/
structure Mapping.IsCanonical (m : Mapping) (p : Idql.Policy) : Prop where
  version : p.info.version = Idql.version
  policyId : ∀ text ∈ p.info.policyId, ∀ c ∈ text.toList, isControl c = false
  description : ∀ text ∈ p.info.description, ∀ c ∈ text.toList, isControl c = false
  subject : ∃ subject, p.subjects = [subject] ∧ m.IsCanonicalSubject subject
  actions : ∀ a ∈ p.actions, IsCanonicalAction a
  object : p.object = "" ∨ IsEntityText p.object ∧ trimmed p.object = p.object
  condition : ∀ c ∈ p.condition, IsCanonicalRule c.rule
  /-- The Cedar policy is not that of everyone who is authenticated. -/
  distinct : p.subjects = [Subject.anyName] → p.condition ≠ some authenticatedCondition

section

variable {m : Mapping}

/-! ## Slots -/

theorem isEntityText_actionEntity {action : String} (h : IsCanonicalAction action) :
    IsEntityText (actionEntity action) := by
  have hentity : actionEntity action =
      "Action" ++ "::" ++ String.ofList ('"' :: (action.toList ++ ['"'])) := by
    have hstart : actionEntityStart = "Action".toList ++ "::".toList ++ ['"'] := by decide
    rw [actionEntity_of_isActionName h.isActionName, ← String.toList_inj, hstart]
    simp only [String.toList_append, String.toList_ofList, List.append_assoc, List.cons_append,
      List.nil_append]
  rw [hentity]
  refine isEntityText_of_isLiteral (by decide) ?_
  rw [String.toList_ofList]
  exact isLiteral_plain h.plain

/-- The names of the entities of canonical actions. -/
theorem entities_actionScope_of_isCanonical {actions : List String}
    (h : ∀ a ∈ actions, IsCanonicalAction a) :
    ((actionScope actions).map fun s => s.entities.map actionName).getD [] = actions := by
  have hback : (actions.map actionEntity).map actionName = actions := by
    have hname : ∀ a ∈ actions, actionName (actionEntity a) = a := fun a ha =>
      actionName_actionEntity (h a ha).isActionName fun hquote => ((h a ha).plain _ hquote).1 rfl
    rw [List.map_map, Function.comp_def]
    exact (List.map_congr_left hname).trans (List.map_id' _)
  cases hscope : actionScope actions with
  | none =>
    match actions with
    | [] => rfl
    | [_] => cases hscope
    | _ :: _ :: _ => cases hscope
  | some s =>
    show s.entities.map actionName = actions
    rw [entities_actionScope hscope, hback]

/-- The constraint to a canonical object. -/
theorem Mapping.objectScope_of_isCanonical {object : String}
    (h : object = "" ∨ IsEntityText object ∧ trimmed object = object) :
    object = "" ∧ m.objectScope object = none ∨
      IsEntityText object ∧ ∃ operator, m.objectScope object = some ⟨operator, object⟩ := by
  rcases h with rfl | ⟨htext, htrimmed⟩
  · have hscope : m.objectScope "" = none := rfl
    exact .inl ⟨rfl, hscope⟩
  · have hne : object.isEmpty = false := by
      rw [← Bool.not_eq_true, String.isEmpty_iff, ← String.toList_eq_nil_iff]
      exact htext.ne_nil
    have hscope := m.objectScope_of_keeps (c := ⟨m.operatorOf object, object⟩)
      ⟨htrimmed, hne, rfl⟩
    exact .inr ⟨htext, _, hscope⟩

/-- The constraint to a subject that is an entity. -/
theorem Mapping.exists_subjectScope {subject entity : String}
    (h : Subject.classify m.containerTypes subject = .single entity ∨
      Subject.classify m.containerTypes subject = .container entity) :
    ∃ operator, m.subjectScope subject = (some ⟨operator, trimmed subject⟩, []) := by
  have hentity : entity = trimmed subject := by
    unfold Subject.classify at h
    dsimp only at h
    split_ifs at h
    · simp at h
    · simp at h
    · cases hkind : EntityKind.of m.containerTypes (trimmed subject) <;>
        simpa [hkind, eq_comm] using h
  unfold Mapping.subjectScope
  rw [← hentity]
  rcases h with h | h <;> rw [h]
  · exact ⟨.eq, rfl⟩
  · exact ⟨.in, rfl⟩

/-- The subject of the policy that is written for a canonical subject. -/
theorem Mapping.subjectOf_cedarPolicy {p : Idql.Policy} {condition : Option Clause}
    {subject : String} (hsubject : m.IsCanonicalSubject subject)
    (hasks : subject = Subject.anyName → ∀ c ∈ condition, asksAuthentication c = .ok false) :
    subjectOf (m.cedarPolicy p condition subject) = .ok (subject, condition.toList) := by
  cases hsubject with
  | any =>
    have hscope : m.subjectScope Subject.anyName = (none, []) := rfl
    rw [m.cedarPolicy_of_subjectScope hscope]
    cases condition with
    | none => rfl
    | some c => exact bind_eq_ok.mpr ⟨false, hasks rfl c rfl, rfl⟩
  | anyAuthenticated =>
    have hscope : m.subjectScope Subject.anyAuthenticatedName =
        (none, [⟨.when, authenticatedBody⟩]) := rfl
    rw [m.cedarPolicy_of_subjectScope hscope]
    exact bind_eq_ok.mpr ⟨true, asksAuthentication_authenticatedBody, rfl⟩
  | entity _ htrimmed hkind =>
    obtain ⟨entity, hkind⟩ := hkind
    obtain ⟨operator, hscope⟩ := m.exists_subjectScope hkind
    rw [m.cedarPolicy_of_subjectScope hscope, htrimmed]
    rfl

/-! ## Conditions -/

/-- The clause of a canonical condition is folded into the condition again, and
is taken for a subject only if the condition says nothing else. -/
theorem Mapping.exists_clauseOf (hnames : m.names = .identity) {c : Idql.Condition}
    (h : IsCanonicalRule c.rule) :
    ∃ clause, m.clauseOf c = .ok clause ∧ m.fold .permit [clause] = .ok (some c) ∧
      ∃ asks, asksAuthentication clause = .ok asks ∧
        (asks = true → c = authenticatedCondition) := by
  obtain ⟨rule, action⟩ := c
  obtain ⟨body, hbody, hrule⟩ := h
  obtain ⟨e, he, htext⟩ := bind_eq_ok.mp hrule
  rw [← hnames] at hbody hrule
  cases action with
  | allow =>
    refine ⟨⟨.when, body⟩, bind_eq_ok.mpr ⟨body, hbody, rfl⟩, bind_eq_ok.mpr ⟨rule, hrule, rfl⟩, ?_⟩
    have hasks : asksAuthentication ⟨.when, body⟩ =
        .ok (decide (e.unparenthesized = authenticated)) := by
      simp only [asksAuthentication, he]
    refine ⟨_, hasks, fun h => ?_⟩
    rw [h] at hasks
    obtain ⟨-, he'⟩ := filterOfCel_of_asksAuthentication hasks
    obtain rfl := Except.ok.inj (he.symm.trans he')
    have hsame : authenticated.text = rule := Except.ok.inj htext
    rw [← hsame]
    decide +kernel
  | deny =>
    exact ⟨⟨.unless, body⟩, bind_eq_ok.mpr ⟨body, hbody, rfl⟩, bind_eq_ok.mpr ⟨rule, hrule, rfl⟩,
      false, rfl, fun h => by cases h⟩

/-- The same of a condition that there may be. -/
theorem Mapping.exists_mapM_clauseOf (hnames : m.names = .identity) {o : Option Idql.Condition}
    (h : ∀ c ∈ o, IsCanonicalRule c.rule) :
    ∃ o', o.mapM m.clauseOf = .ok o' ∧ m.fold .permit o'.toList = .ok o ∧
      ∀ clause ∈ o', ∃ asks, asksAuthentication clause = .ok asks ∧
        (asks = true → o = some authenticatedCondition) := by
  cases o with
  | none => exact ⟨none, rfl, rfl, fun clause h => by cases h⟩
  | some c =>
    obtain ⟨clause, hclause, hfold, asks, hasks, honly⟩ := m.exists_clauseOf hnames (h c rfl)
    refine ⟨some clause, map_eq_ok.mpr ⟨clause, hclause, rfl⟩, hfold, ?_⟩
    rintro _ ⟨⟩
    exact ⟨asks, hasks, fun h => congrArg some (honly h)⟩

theorem isNameText_of_isAttributePath {path : String} (h : IsAttributePath path) :
    IsNameText path := by
  obtain ⟨x, xs, hxs, -⟩ := Cel.exists_start_path h
  refine (isSolid_plain (by simp [hxs]) fun c hc => ?_).toIsNameText
  rcases Cel.isIdentPart_of_mem_path h hc with rfl | hpart
  · decide
  · have hascii := Cel.toNat_lt_of_isIdentPart hpart
    revert hpart
    exact Text.of_ascii hascii (by decide)

/-- A canonical rule names attributes that keep together. -/
theorem IsCanonicalRule.namesFit {rule : String} (h : IsCanonicalRule rule) :
    Yields (NamesFit .identity) (Expression.parse rule) := by
  obtain ⟨body, -, hrule⟩ := h
  obtain ⟨r, hr, htext⟩ := bind_eq_ok.mp hrule
  cases htext
  intro e hread
  obtain ⟨-, hexportable, -⟩ := (isImported_of_filterOfCel hr).of_parse_text hread
  exact hexportable.imp (fun _ => False.elim) fun c hc =>
    .of_eq_ok (NameMap.resolve_identity _ c.path) (isNameText_of_isAttributePath hc.path)

/-! ## Policies -/

/-- What is written for a canonical policy keeps together. -/
theorem Mapping.fits_of_isCanonical (hnames : m.names = .identity) {p : Idql.Policy}
    (h : m.IsCanonical p) : m.Fits p := by
  refine ⟨?_, fun a ha => isEntityText_actionEntity (h.actions a ha), ?_, fun c hc => ?_⟩
  · obtain ⟨subject, hsubjects, hsubject⟩ := h.subject
    intro s hs c hc
    rw [subjectsOf, hsubjects] at hs
    obtain rfl := List.mem_singleton.mp hs
    cases hsubject with
    | any => cases hc
    | anyAuthenticated => cases hc
    | entity htext htrimmed hkind =>
      obtain ⟨entity, hkind⟩ := hkind
      obtain ⟨operator, hscope⟩ := m.exists_subjectScope hkind
      rw [hscope, htrimmed] at hc
      cases hc
      exact htext
  · intro c hc
    rcases m.objectScope_of_isCanonical h.object with ⟨-, hscope⟩ | ⟨htext, operator, hscope⟩ <;>
      rw [hscope] at hc
    · cases hc
    · cases hc
      exact htext
  · rw [hnames]
    exact (h.condition c hc).namesFit

/-- The Cedar policy of a canonical policy is imported as the policy. -/
theorem Mapping.exists_cedarOf (hnames : m.names = .identity) {p : Idql.Policy}
    (h : m.IsCanonical p) : ∃ q, m.cedarOf p = .ok [q] ∧ m.policyOf q = .ok p := by
  obtain ⟨subject, hsubjects, hsubject⟩ := h.subject
  obtain ⟨condition, hexport, hfold, hasks⟩ := m.exists_mapM_clauseOf hnames h.condition
  have hone : subjectsOf p = [subject] := by
    rw [subjectsOf, hsubjects]
    rfl
  refine ⟨m.cedarPolicy p condition subject, m.cedarOf_eq_ok.mpr ⟨condition, hexport, ?_⟩, ?_⟩
  · rw [hone]
    rfl
  · have hleft : subjectOf (m.cedarPolicy p condition subject) =
        .ok (subject, condition.toList) := by
      refine m.subjectOf_cedarPolicy hsubject fun hany clause hclause => ?_
      obtain ⟨asks, hclause, honly⟩ := hasks clause hclause
      cases asks with
      | true => exact absurd (honly rfl) (h.distinct (hany ▸ hsubjects))
      | false => exact hclause
    have hobject : ((m.objectScope p.object).map (·.entity)).getD "" = p.object := by
      rcases m.objectScope_of_isCanonical h.object with ⟨hempty, hscope⟩ | ⟨-, operator, hscope⟩ <;>
        rw [hscope]
      · exact hempty.symm
      · rfl
    have hactions := entities_actionScope_of_isCanonical h.actions
    rcases hscope : m.subjectScope subject with ⟨principal, asked⟩
    rw [m.cedarPolicy_of_subjectScope hscope] at hleft ⊢
    refine bind_eq_ok.mpr ⟨_, hleft, bind_eq_ok.mpr ⟨p.condition, hfold, ?_⟩⟩
    simp only [note?_idKey, note?_descriptionKey, hactions, hobject]
    rw [← hsubjects, ← h.version]
    rfl

/-! ## Documents -/

/-- Canonical policies survive Cedar text. -/
theorem Mapping.policiesOfText_textOf (hnames : m.names = .identity) {policies : List Idql.Policy}
    (h : ∀ p ∈ policies, m.IsCanonical p) :
    ∃ text, m.textOf policies = .ok text ∧ m.policiesOfText text = .ok policies := by
  obtain ⟨qss, hmapped, himport⟩ :=
    exists_mapM_flatten_eq_ok fun p hp => m.exists_cedarOf hnames (h p hp)
  have hexport : m.documentOf policies = .ok ⟨qss.flatten⟩ := bind_eq_ok.mpr ⟨qss, hmapped, rfl⟩
  have hspelled := m.yields_documentOf (fun p hp => m.fits_of_isCanonical hnames (h p hp)) _ hexport
  have hplain : Document.NotesPlain ⟨qss.flatten⟩ := by
    intro q hq a ha v hv
    obtain ⟨p, hp, condition, subject, heq⟩ := m.exists_of_mem_documentOf hexport hq
    rw [heq, m.notes_cedarPolicy] at ha
    rcases List.mem_append.mp ha with ha | ha
    · obtain ⟨id, hid, rfl⟩ := Option.map_eq_some_iff.mp (Option.mem_toList.mp ha)
      cases hv
      exact (h p hp).policyId v hid
    · obtain ⟨text, htext, rfl⟩ := Option.map_eq_some_iff.mp (Option.mem_toList.mp ha)
      cases hv
      exact (h p hp).description v htext
  have hread := Document.parse_text hspelled
  rw [Document.reread_eq_self hplain] at hread
  exact ⟨_, bind_eq_ok.mpr ⟨_, hexport, rfl⟩, bind_eq_ok.mpr ⟨_, hread, himport⟩⟩

end

/-- A policy for everyone with a denial whose string holds marks of the grammar,
one for those who are authenticated with the condition that says so, and one for
a group with quotes in its id and its description. -/
def surviving : List Idql.Policy :=
  [{ subjects := ["any"],
     actions := ["read"],
     condition := some ⟨"name eq \"\x7d; permit(\\\"\" and not(a.b pr)", .deny⟩ },
   { subjects := ["anyAuthenticated"],
     object := "Folder::\"f\"",
     condition := some authenticatedCondition },
   { info := { policyId := some "\"1\"", description := some "@x(\")" },
     subjects := ["Group::\"g, x)\""],
     actions := ["read", "x:y"] }]

theorem policiesOfText_textOf_surviving :
    (∀ p ∈ surviving, Mapping.IsCanonical {} p) ∧
      ∃ text, Mapping.textOf {} surviving = .ok text ∧
        Mapping.policiesOfText {} text = .ok surviving := by
  have hreference : ∀ type ∈ ["Group", "Folder"], ∀ id,
      IsEntityText (type ++ "::" ++ quote id) := by
    intro type htype id
    refine isEntityText_reference ?_ id
    revert type
    decide
  have hgroup : Mapping.IsCanonicalSubject {} "Group::\"g, x)\"" :=
    .entity (hreference "Group" (by decide) "g, x)") (by decide)
      ⟨"Group::\"g, x)\"", .inr (by decide)⟩
  have haction : ∀ a ∈ ["read", "x:y"], IsCanonicalAction a := by
    intro a ha
    have hname : IsActionName a.toList ∧ ∀ c ∈ a.toList, c ≠ '"' ∧ c ≠ '\\' := by
      revert a
      decide
    exact ⟨hname.1, hname.2⟩
  have hdenial : IsCanonicalRule "name eq \"\x7d; permit(\\\"\" and not(a.b pr)" :=
    ⟨"name == \"\x7d; permit(\\\"\" && !has(a.b)", by decide +kernel, by decide +kernel⟩
  have hauthenticated : IsCanonicalRule authenticatedCondition.rule :=
    ⟨authenticatedBody, by decide +kernel, by decide +kernel⟩
  have hcanonical : ∀ p ∈ surviving, Mapping.IsCanonical {} p := by
    refine List.forall_mem_cons.mpr ⟨?_, List.forall_mem_cons.mpr ⟨?_, ?_⟩⟩
    · refine ⟨rfl, by decide, by decide, ⟨_, rfl, .any⟩, fun a ha => ?_, .inl rfl, ?_, by decide⟩
      · exact haction a (List.mem_cons.mpr (.inl (List.mem_singleton.mp ha)))
      · rintro _ ⟨⟩
        exact hdenial
    · have hfolder := hreference "Folder" (by decide) "f"
      refine ⟨rfl, by decide, by decide, ⟨_, rfl, .anyAuthenticated⟩, List.forall_mem_nil _,
        .inr ⟨hfolder, by decide⟩, ?_, by decide⟩
      rintro _ ⟨⟩
      exact hauthenticated
    · refine List.forall_mem_singleton.mpr ⟨rfl, by decide, by decide, ⟨_, rfl, hgroup⟩, haction,
        .inl rfl, ?_, by decide⟩
      rintro _ ⟨⟩
  exact ⟨hcanonical, Mapping.policiesOfText_textOf rfl hcanonical⟩

end PolicyDialects.Cedar
