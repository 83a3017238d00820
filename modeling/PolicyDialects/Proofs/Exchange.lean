import PolicyDialects.Idql.Policy
import PolicyDialects.Proofs.Gcp.Text

/-!
# Exchanged texts are read back

Documents, assignments and single bindings are exchanged as JSON texts. Each of
them is a record of lists of records, some of whose fields are not written when
they have no value; a reader of assignments looks at the members that it finds to
tell an assignment from a single binding.

Results:

* `Idql.Policy.ofJson?_toJson`: the exchange form of a policy loses nothing.
* `Idql.policiesOfText_policiesText`: neither does the text of a document.
* `exchanged_readBack`: all that is written is read back.
-/

namespace PolicyDialects.Idql

open Json (Textual Slot)

/-! ## Exchange form of a policy -/

theorem Meta.ofJson?_toJson (m : Meta) : ofJson? m.toJson = some m := by
  have hfields : m.toJson.fields? ["version", "policyId", "description"] =
      some [.given (.str m.version), .ofOption (m.policyId.map .str),
        .ofOption (m.description.map .str)] :=
    Json.fields?_partialRecord rfl (by decide)
  rw [ofJson?, hfields]
  simp only [Option.bind_eq_bind, Option.bind_some, Slot.optional_str]
  rfl

theorem ConditionAction.ofJson?_toJson (a : ConditionAction) : ofJson? a.toJson = some a := by
  cases a <;> rfl

theorem Condition.ofJson?_toJson (c : Condition) : ofJson? c.toJson = some c := by
  have hfields : c.toJson.fields? ["rule", "action"] =
      some [.given (.str c.rule), .given c.action.toJson] :=
    Json.fields?_record rfl (by decide)
  have haction : (Slot.given c.action.toJson).defaulted .allow ConditionAction.ofJson? =
      some c.action := c.action.ofJson?_toJson
  rw [ofJson?, hfields]
  simp only [Option.bind_eq_bind, Option.bind_some, haction]
  rfl

theorem Policy.ofJson?_toJson (p : Policy) : ofJson? p.toJson = some p := by
  have hfields : p.toJson.fields? ["meta", "subjects", "actions", "object", "condition"] =
      some [.given p.info.toJson, .given (.strings p.subjects), .given (.strings p.actions),
        .given (.str p.object), .ofOption (p.condition.map Condition.toJson)] :=
    Json.fields?_partialRecord rfl (by decide)
  have hinfo : (Slot.given p.info.toJson).defaulted {} Meta.ofJson? = some p.info :=
    p.info.ofJson?_toJson
  have htexts : ∀ texts : List String,
      (Slot.given (.strings texts)).defaulted [] (Json.list? Json.text?) = some texts :=
    Json.list?_strings
  have hcondition : (Slot.ofOption (p.condition.map Condition.toJson)).optional
      Condition.ofJson? = some p.condition :=
    Slot.optional_ofOption (fun _ _ => Json.noConfusion) fun c _ => c.ofJson?_toJson
  rw [ofJson?, hfields]
  simp only [Option.bind_eq_bind, Option.bind_some, hinfo, htexts, hcondition]
  rfl

/-! ## Text of a document -/

theorem Meta.textual_toJson (m : Meta) : Textual 1 m.toJson := by
  refine .partialRecord (by simp) ?_
  exact ⟨.of_mem_some (.text 0 _), .of_mem_map (.text 0), .of_mem_map (.text 0)⟩

theorem Condition.textual_toJson (c : Condition) : Textual 1 c.toJson := by
  refine .fields (by simp) ?_
  exact ⟨.text 0 _, .text 0 _⟩

theorem Policy.textual_toJson (p : Policy) : Textual 2 p.toJson := by
  refine .partialRecord (by simp) ?_
  exact ⟨.of_mem_some p.info.textual_toJson, .of_mem_some (.strings p.subjects),
    .of_mem_some (.strings p.actions), .of_mem_some (.text 1 _),
    .of_mem_map Condition.textual_toJson⟩

theorem textual_policiesJson (policies : List Policy) : Textual 4 (policiesJson policies) := by
  refine .fields (by simp) ?_
  exact (.map fun p _ => p.textual_toJson)

/-- The text of a document is read back. -/
theorem policiesOfText_policiesText (policies : List Policy) :
    policiesOfText (policiesText policies) = .ok policies := by
  have hread : Json.read? (policiesText policies) = some (policiesJson policies) :=
    (textual_policiesJson policies).read?_pretty
  have hfields : (policiesJson policies).fields? ["policies"] =
      some [.given (.array (policies.map Policy.toJson))] :=
    Json.fields?_record rfl (by decide)
  have hpolicies : (Slot.given (.array (policies.map Policy.toJson))).required
      (Json.list? Policy.ofJson?) = some policies :=
    Json.list?_map fun p _ => p.ofJson?_toJson
  rw [policiesOfText, hread]
  simp only [Option.bind_eq_bind, Option.bind_some, hfields, hpolicies]

end PolicyDialects.Idql

namespace PolicyDialects

open Idql Gcp

/-! ## Everything that is exchanged -/

/-- What is written is read back, whatever its texts hold, whichever of its fields
have no value and however long its lists are: documents, assignments, and single
bindings, as an assignment without a resource. -/
theorem exchanged_readBack :
    (∀ policies : List Policy, policiesOfText (policiesText policies) = .ok policies) ∧
    (∀ a : Assignment, Assignment.ofText a.text = .ok a) ∧
    ∀ b : Binding, Assignment.ofText b.toJson.pretty = .ok { resourceId := "", bindings := [b] } :=
  ⟨policiesOfText_policiesText, Assignment.ofText_text, Assignment.ofText_binding⟩

end PolicyDialects
