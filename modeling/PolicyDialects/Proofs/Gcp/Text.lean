import PolicyDialects.Gcp.Binding
import PolicyDialects.Proofs.Json.Records

/-!
# The text of assignments is read back

Results:

* `Binding.ofJson?_toJson`, `Assignment.ofJson?_toJson`: the exchange form loses
  nothing.
* `Assignment.ofText_text`: neither does its text.
* `Assignment.ofText_binding`: a single binding is read as an assignment.
-/

namespace PolicyDialects.Gcp

open Json (Textual Slot)

/-! ## Exchange form -/

theorem BindingCondition.ofJson?_toJson (c : BindingCondition) : ofJson? c.toJson = some c := by
  have hfields : c.toJson.fields? ["expression", "title", "description"] =
      some [.given (.str c.expression), .ofOption (c.title.map .str),
        .ofOption (c.description.map .str)] :=
    Json.fields?_partialRecord rfl (by decide)
  rw [ofJson?, hfields]
  simp only [Option.bind_eq_bind, Option.bind_some, Slot.optional_str]
  rfl

theorem Binding.ofJson?_toJson (b : Binding) : ofJson? b.toJson = some b := by
  have hfields : b.toJson.fields? ["role", "members", "condition"] =
      some [.given (.str b.role), .given (.strings b.members),
        .ofOption (b.condition.map BindingCondition.toJson)] :=
    Json.fields?_partialRecord rfl (by decide)
  have hmembers : (Slot.given (.strings b.members)).defaulted [] (Json.list? Json.text?) =
      some b.members := Json.list?_strings b.members
  have hcondition : (Slot.ofOption (b.condition.map BindingCondition.toJson)).optional
      BindingCondition.ofJson? = some b.condition :=
    Slot.optional_ofOption (fun _ _ => Json.noConfusion) fun c _ =>
      BindingCondition.ofJson?_toJson c
  rw [ofJson?, hfields]
  simp only [Option.bind_eq_bind, Option.bind_some, hmembers, hcondition]
  rfl

theorem Assignment.ofJson?_toJson (a : Assignment) : ofJson? a.toJson = some a := by
  have hfields : a.toJson.fields? ["resource_id", "bindings"] =
      some [.given (.str a.resourceId), .given (.array (a.bindings.map Binding.toJson))] :=
    Json.fields?_record rfl (by decide)
  have hbindings : (Slot.given (.array (a.bindings.map Binding.toJson))).defaulted []
      (Json.list? Binding.ofJson?) = some a.bindings :=
    Json.list?_map fun b _ => b.ofJson?_toJson
  rw [ofJson?, hfields]
  simp only [Option.bind_eq_bind, Option.bind_some, hbindings]
  rfl

/-! ## Text -/

theorem BindingCondition.textual_toJson (c : BindingCondition) : Textual 1 c.toJson := by
  refine .partialRecord (by simp) ?_
  exact ⟨.of_mem_some (.text 0 _), .of_mem_map (.text 0), .of_mem_map (.text 0)⟩

theorem Binding.textual_toJson (b : Binding) : Textual 2 b.toJson := by
  refine .partialRecord (by simp) ?_
  exact ⟨.of_mem_some (.text 1 _), .of_mem_some (.strings b.members),
    .of_mem_map BindingCondition.textual_toJson⟩

theorem Assignment.textual_toJson (a : Assignment) : Textual 4 a.toJson := by
  refine .fields (by simp) ?_
  exact ⟨.text 3 _, .map fun b _ => b.textual_toJson⟩

theorem treeOfText?_pretty {d : Nat} {j : Json} (h : Textual d j) (hd : d ≤ maxTextDepth) :
    treeOfText? j.pretty = some j := by
  rw [treeOfText?, h.read?_pretty, Option.bind_eq_bind, Option.bind_some,
    if_pos ⟨h.isPlain_eq, Nat.le_trans h.depth_le hd⟩, h.lastWins_eq]

/-- The text of an assignment is read back. -/
theorem Assignment.ofText_text (a : Assignment) : ofText a.text = .ok a := by
  have htree : treeOfText? a.text = some a.toJson :=
    treeOfText?_pretty a.textual_toJson (by decide)
  have hbindings : (a.toJson.get? "bindings").isSome := rfl
  rw [ofText, htree]
  dsimp only
  rw [if_pos hbindings, ofJson?_toJson]

/-- The text of a single binding is read as an assignment that consists of it. -/
theorem Assignment.ofText_binding (b : Binding) :
    ofText b.toJson.pretty = .ok { resourceId := "", bindings := [b] } := by
  have htree : treeOfText? b.toJson.pretty = some b.toJson :=
    treeOfText?_pretty b.textual_toJson (by decide)
  have hbindings : b.toJson.get? "bindings" = none :=
    Json.get?_partialRecord (by simp)
  have hrole : (b.toJson.get? "role").isSome := rfl
  rw [ofText, htree]
  dsimp only
  rw [hbindings, if_neg (by simp), if_pos hrole, b.ofJson?_toJson]

end PolicyDialects.Gcp
