import PolicyDialects.Cel.Evaluation
import PolicyDialects.Condition
import PolicyDialects.Proofs.Cel.Import

/-!
# Comparisons of negated attributes

Import reads `!a op c` as the negation of `a op c`, whatever the operator and the
constant are. Both have the same value when the comparison holds of one of the
Booleans and not of the other. If it holds of both or of neither, the negation
in front of the attribute changes nothing, and the negation of the comparison
does.

* `Relation.tellsApart` — the comparisons of the first kind, but for equality
  with what is no Boolean.

Results:

* `outcome?_not_iff`: negating a Boolean negates exactly those comparisons.
* `holds_negatedOperand_iff`: what is imported, and that those are the
  conditions that import keeps the value of.
* `holds_negatedOperand_changed`: others change it.
-/

namespace PolicyDialects.Cel

open PolicyDialects.Filter (Expression Value)

/-- The comparison holds of exactly one of `true` and `false`. -/
def Relation.tellsApart : Relation → Value → Bool
  | .equals, .boolean _ => true
  | .notEquals, .boolean _ => true
  | .less, .boolean c => c
  | .greaterEquals, .boolean c => c
  | .lessEquals, .boolean c => !c
  | .greater, .boolean c => !c
  | .in, .list items => decide (.boolean true ∈ items) != decide (.boolean false ∈ items)
  | _, _ => false

theorem outcome?_boolean_not_iff {typing : Typing} {op : Relation} {b c w x : Bool}
    (hnegated : op.outcome? typing (!b) (.boolean c) = some w)
    (h : op.outcome? typing b (.boolean c) = some x) :
    (!x) = w ↔ op.tellsApart (.boolean c) = true := by
  cases op with
  | «in» => cases h
  | _ => cases h; cases hnegated; revert b c; decide

theorem outcome?_in_not_iff {typing : Typing} {b w x : Bool} {items : List Value}
    (hnegated : Relation.in.outcome? typing (!b) (.list items) = some w)
    (h : Relation.in.outcome? typing b (.list items) = some x) :
    (!x) = w ↔ Relation.in.tellsApart (.list items) = true := by
  have hapart : ∀ a c : Bool, (!a) = c ↔ (a != c) = true := by decide
  cases h
  cases hnegated
  cases b with
  | true => exact hapart _ _
  | false =>
    rw [Relation.tellsApart, bne_comm]
    exact hapart _ _

/-- Every other comparison has one value for both Booleans, if it has any. -/
theorem outcome?_not_eq (typing : Typing) {op : Relation} (b : Bool) {v : Value}
    (hboolean : ∀ c, v ≠ .boolean c) (hlist : ∀ items, v = .list items → op ≠ .in) :
    op.outcome? typing (!b) v = op.outcome? typing b v ∧ op.tellsApart v = false := by
  cases v with
  | boolean c => exact absurd rfl (hboolean c)
  | list items =>
    cases op with
    | «in» => exact absurd rfl (hlist items rfl)
    | _ => exact ⟨rfl, rfl⟩
  | _ => cases op <;> exact ⟨rfl, rfl⟩

/-- Negating the Boolean negates the value of a comparison exactly if it tells the
Booleans apart. -/
theorem outcome?_not_iff {typing : Typing} {op : Relation} {b w x : Bool} {v : Value}
    (hnegated : op.outcome? typing (!b) v = some w) (h : op.outcome? typing b v = some x) :
    (!x) = w ↔ op.tellsApart v = true := by
  by_cases hboolean : ∃ c, v = .boolean c
  · obtain ⟨c, rfl⟩ := hboolean
    exact outcome?_boolean_not_iff hnegated h
  by_cases hlist : ∃ items, v = .list items ∧ op = .in
  · obtain ⟨items, rfl, rfl⟩ := hlist
    exact outcome?_in_not_iff hnegated h
  push Not at hboolean hlist
  obtain ⟨hsame, happart⟩ := outcome?_not_eq typing b hboolean hlist
  obtain rfl : w = x := Option.some.inj (hnegated.symm.trans (hsame.trans h))
  rw [happart]
  simp

/-- Whether a comparison has a value does not depend on the Boolean. -/
theorem exists_outcome?_of_not {typing : Typing} {op : Relation} {b w : Bool} {v : Value}
    (hnegated : op.outcome? typing (!b) v = some w) : ∃ x, op.outcome? typing b v = some x := by
  by_cases hboolean : ∃ c, v = .boolean c
  · obtain ⟨c, rfl⟩ := hboolean
    cases op with
    | «in» => cases hnegated
    | _ => exact ⟨_, rfl⟩
  by_cases hlist : ∃ items, v = .list items ∧ op = .in
  · obtain ⟨items, rfl, rfl⟩ := hlist
    exact ⟨_, rfl⟩
  push Not at hboolean hlist
  exact ⟨w, (outcome?_not_eq typing b hboolean hlist).1.symm.trans hnegated⟩

namespace Tree

theorem boolean?_of_selectPath {e : Tree} {path : String} (h : e.selectPath = .ok path)
    (typing : Typing) (values : String → Option Bool) : e.boolean? typing values = values path := by
  cases e with
  | ident name => cases h; rfl
  | select e name =>
    rw [boolean?, h]
    · rfl
    all_goals simp
  | _ => cases h

/-- The value of a comparison with a negated attribute. -/
theorem boolean?_negatedOperand {op : Relation} {operand c : Tree} {path : String} {value : Value}
    (hpath : operand.selectPath = .ok path) (hvalue : c.constantValue = .ok value)
    {typing : Typing} {values : String → Option Bool} {b : Bool} (hb : values path = some b) :
    (Tree.relation op (.unary .not operand) c).boolean? typing values =
      op.outcome? typing (!b) value := by
  rw [boolean?, boolean?, boolean?_of_selectPath hpath, hb, hvalue]
  rfl

/-- Conversion negates the comparison. -/
theorem toFilter_negatedOperand {names : NameMap} {op : Relation} {operand c : Tree}
    {e : Expression} (h : (Tree.relation op (.unary .not operand) c).toFilter names = .ok e) :
    ∃ path value, operand.selectPath = .ok path ∧ c.constantValue = .ok value ∧
      e = .not (.compare (.with (names.toIdql path) (relationOperator op) value)) := by
  obtain ⟨⟨e₀, himports, rfl⟩, -⟩ := exists_imports_of_toFilterAt h
  cases himports with
  | compare hcompare =>
    rcases comparison?_eq_some hcompare with ⟨_, _, _, _, _, heq, hpath, -⟩ | ⟨_, _, heq, -⟩ |
      ⟨_, _, _, _, _, _, heq, -⟩
    · cases heq
      cases hpath
    · cases heq
    · cases heq
  | notCompare hcompare =>
    rcases comparison?_eq_some hcompare with ⟨_, _, _, path, value, heq, hpath, hvalue, rfl⟩ |
      ⟨_, _, heq, -⟩ | ⟨_, _, _, _, _, _, heq, -⟩
    · cases heq
      exact ⟨path, value, hpath, hvalue, rfl⟩
    · cases heq
    · cases heq

end Tree

end PolicyDialects.Cel

namespace PolicyDialects.Condition

open Cel (Relation Tree Typing)
open PolicyDialects.Filter (Comparison Expression Value)

/-- `!a op c` is imported as the negation of `a op c`. Where it has a value in
CEL, the filter has that value exactly if `a op c` tells the Booleans apart;
otherwise it has the other one. -/
theorem holds_negatedOperand_iff {names : NameMap} {cel : String} {op : Relation}
    {operand c : Tree} {e : Expression}
    (hparse : Tree.parse cel = .ok (.relation op (.unary .not operand) c))
    (he : filterOfCel names cel = .ok e) :
    ∃ path value, operand.selectPath = .ok path ∧ c.constantValue = .ok value ∧
      e = .not (.compare (.with (names.toIdql path) (Tree.relationOperator op) value)) ∧
      ∀ (typing : Typing) (values : String → Option Bool) (b w : Bool),
        values path = some b →
        (Tree.relation op (.unary .not operand) c).boolean? typing values = some w →
        ∃ x, op.outcome? typing b value = some x ∧
          ∀ truth : List String → Comparison → Bool,
            truth [] (.with (names.toIdql path) (Tree.relationOperator op) value) = x →
            (e.holds truth = w ↔ op.tellsApart value = true) := by
  have hfilter : (Tree.relation op (.unary .not operand) c).toFilter names = .ok e := by
    unfold filterOfCel at he
    rwa [hparse] at he
  obtain ⟨path, value, hpath, hvalue, rfl⟩ := Tree.toFilter_negatedOperand hfilter
  refine ⟨path, value, hpath, hvalue, rfl, fun typing values b w hb hw => ?_⟩
  rw [Tree.boolean?_negatedOperand hpath hvalue hb] at hw
  obtain ⟨x, hx⟩ := Cel.exists_outcome?_of_not hw
  refine ⟨x, hx, ?_⟩
  rintro truth rfl
  exact Cel.outcome?_not_iff hw hx

/-- `!user.active in [true, "x"]`. -/
def negatedMember : Tree :=
  .relation .in (.unary .not (.select (.ident "user") "active"))
    (.list [.constant (.bool true), .constant (.string "x")])

theorem parse_negatedMember :
    Tree.parse "!user.active in [true, \"x\"]" = .ok negatedMember := by
  with_unfolding_all rfl

/-- An active user is not told apart by a list without `false`. -/
theorem holds_negatedMember :
    let names : NameMap :=
      { pairs := [⟨"active", "user.active"⟩], idql_nodup := by decide, provider_nodup := by decide }
    let members : Value := .list [.boolean true, .string "x"]
    let filter : Expression := .not (.compare (.with "active" .in members))
    Tree.parse "!user.active in [true, \"x\"]" = .ok negatedMember ∧
      filterOfCel names "!user.active in [true, \"x\"]" = .ok filter ∧
      negatedMember.boolean? .checked (fun _ => some true) = some false ∧
      Relation.in.outcome? .checked true members = some true ∧
      filter.holds (fun _ _ => true) = false := by
  intro names members filter
  have hfilter : filterOfCel names "!user.active in [true, \"x\"]" = .ok filter := by
    decide +kernel
  have hvalue : negatedMember.boolean? .checked (fun _ => some true) = some false := by decide
  obtain ⟨path, value, hpath, hconstant, -, hiff⟩ :=
    holds_negatedOperand_iff parse_negatedMember hfilter
  obtain rfl : "user.active" = path := Except.ok.inj ((by decide : _ = _).trans hpath)
  obtain rfl : members = value := Except.ok.inj ((by decide : _ = _).trans hconstant)
  obtain ⟨x, hx, htruth⟩ := hiff .checked (fun _ => some true) true false rfl hvalue
  obtain rfl : true = x := Option.some.inj ((by decide : _ = _).trans hx)
  exact ⟨parse_negatedMember, hfilter, hvalue, hx, (htruth (fun _ _ => true) rfl).mpr (by decide)⟩

/-! ## Values that change -/

/-- `!a < false` is false when `a` is true, and so is `a < false`, which the
filter negates. -/
theorem holds_negatedOperand_changed :
    let cel : Tree := .relation .less (.unary .not (.ident "a")) (.constant (.bool false))
    let filter : Expression := .not (.compare (.with "a" .lt (.boolean false)))
    Tree.parse "!a < false" = .ok cel ∧ filterOfCel .identity "!a < false" = .ok filter ∧
      cel.boolean? .checked (fun _ => some true) = some false ∧
      Relation.less.outcome? .checked true (.boolean false) = some false ∧
      filter.holds (fun _ _ => false) = true := by
  intro cel filter
  have hparse : Tree.parse "!a < false" = .ok cel := by with_unfolding_all rfl
  exact ⟨hparse, by decide +kernel, by decide, by decide, by decide⟩

end PolicyDialects.Condition
