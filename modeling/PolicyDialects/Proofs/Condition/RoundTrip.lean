import PolicyDialects.Condition
import PolicyDialects.Proofs.Condition.Export
import PolicyDialects.Proofs.Filter.RoundTrip
import PolicyDialects.Proofs.Filter.Soundness

/-!
# Conditions through CEL and back

Results:

* `notsSpelled_parenthesized`: what export writes has no three `!` in a row.
* `imports_celTree`: what import makes of the tree that export wrote has the
  same comparisons and the same truth.
* `groupsOrs_of_imports`: the parentheses that import puts.
* `levels_written_le`: the tree of an expression of the grammar is no deeper
  than the expression.
* `filterOfCel_toCel`: export followed by import keeps a condition.
-/

namespace PolicyDialects.Filter.Expression

open Cel (Tree)
open Text

/-! ## Nested negations -/

/-- The operand of a negation without one pair of parentheses. -/
def negated? : Expression → Option Expression
  | .not inner => some inner.unparenthesized
  | _ => none

/-- Whether the expression is a `not` of a `not` of a `not`, each operand in
at most one pair of parentheses. -/
def isTripleNot (e : Expression) : Bool :=
  ((e.negated? >>= negated?) >>= negated?).isSome

/-- No three `not`s stand directly in one another. -/
def NotsPaired : Expression → Prop
  | .compare _ => True
  | .logical _ left right => left.NotsPaired ∧ right.NotsPaired
  | .not inner => isTripleNot (.not inner) = false ∧ inner.NotsPaired
  | .group inner => inner.NotsPaired
  | .valuePath _ filter => filter.NotsPaired

instance NotsPaired.decidable : (e : Expression) → Decidable e.NotsPaired
  | .compare _ => isTrue trivial
  | .logical _ left right =>
    @instDecidableAnd _ _ (NotsPaired.decidable left) (NotsPaired.decidable right)
  | .not inner => @instDecidableAnd _ _ inferInstance (NotsPaired.decidable inner)
  | .group inner => NotsPaired.decidable inner
  | .valuePath _ filter => NotsPaired.decidable filter

theorem NotsPaired.unparenthesized {e : Expression} (h : e.NotsPaired) :
    e.unparenthesized.NotsPaired := by
  cases e <;> exact h

/-! ## What parentheses change -/

theorem holds_negation (truth : List String → Comparison → Bool) (e : Expression) :
    e.negation.holds truth = !e.holds truth := by
  unfold negation
  split <;> rfl

theorem comparisons_negation (e : Expression) : e.negation.comparisons = e.comparisons := by
  unfold negation
  split <;> rfl

theorem each_negation {path : String → Prop} {comparison : Comparison → Prop} (e : Expression) :
    e.negation.Each path comparison ↔ e.Each path comparison := by
  unfold negation
  split <;> rfl

theorem holds_unparenthesized (truth : List String → Comparison → Bool) (e : Expression) :
    e.unparenthesized.holds truth = e.holds truth := by
  cases e <;> rfl

theorem comparisons_unparenthesized (e : Expression) :
    e.unparenthesized.comparisons = e.comparisons := by
  cases e <;> rfl

theorem holds_parenthesized (truth : List String → Comparison → Bool) (u : Bool)
    (e : Expression) : (parenthesized u e).holds truth = e.holds truth := by
  induction e using operandInduction generalizing u with
  | compare c => rfl
  | logical op left right ihl ihr =>
    cases op <;> cases u <;> simp only [parenthesized, holds, ihl, ihr]
  | not inner ih =>
    rw [parenthesized_not, holds_negation, ih, holds_unparenthesized]
    rfl
  | group inner ih => exact ih false
  | valuePath path filter => rfl

theorem comparisons_parenthesized (u : Bool) (e : Expression) :
    (parenthesized u e).comparisons = e.comparisons := by
  induction e using operandInduction generalizing u with
  | compare c => rfl
  | logical op left right ihl ihr =>
    cases op <;> cases u <;> simp only [parenthesized, comparisons, ihl, ihr]
  | not inner ih =>
    rw [parenthesized_not, comparisons_negation, ih, comparisons_unparenthesized]
    rfl
  | group inner ih => exact ih false
  | valuePath path filter => rfl

theorem each_parenthesized {path : String → Prop} {comparison : Comparison → Prop} (u : Bool)
    (e : Expression) : (parenthesized u e).Each path comparison ↔ e.Each path comparison := by
  induction e using operandInduction generalizing u with
  | compare c => rfl
  | logical op left right ihl ihr =>
    cases op with
    | and => exact and_congr (ihl true) (ihr true)
    | or => cases u <;> exact and_congr (ihl false) (ihr false)
  | not inner ih =>
    rw [parenthesized_not, each_negation, ih, each_unparenthesized]
    rfl
  | group inner ih => exact ih false
  | valuePath path filter => rfl

theorem isExportable_parenthesized {e : Expression} (he : e.IsExportable) (u : Bool) :
    (parenthesized u e).IsExportable :=
  (each_parenthesized u e).mpr he

/-! ## Nesting of the written expression -/

theorem isOr_negation (e : Expression) : e.negation.isOr = false := by
  unfold negation
  split <;> rfl

/-- An operand of `&&` is no `or` outside of parentheses. -/
theorem isOr_parenthesized (e : Expression) : (parenthesized true e).isOr = false := by
  cases e with
  | logical op left right => cases op <;> rfl
  | not inner => rw [parenthesized_not]; exact isOr_negation _
  | _ => rfl

theorem orsApart_negation {e : Expression} (h : e.OrsApart) : e.negation.OrsApart := by
  unfold negation
  split <;> exact h

theorem orsApart_parenthesized {e : Expression} (he : e.IsExportable) (u : Bool) :
    (parenthesized u e).OrsApart := by
  induction e using operandInduction generalizing u with
  | compare c => trivial
  | logical op left right ihl ihr =>
    cases op with
    | and =>
      exact ⟨fun _ => ⟨isOr_parenthesized left, isOr_parenthesized right⟩, ihl he.1 true,
        ihr he.2 true⟩
    | or =>
      have hne : LogicalOperator.or ≠ .and := by decide
      cases u <;>
        exact ⟨fun hop => absurd hop hne, ihl he.1 false, ihr he.2 false⟩
  | not inner ih =>
    rw [parenthesized_not]
    exact orsApart_negation (ih ((each_unparenthesized inner).mpr he) false)
  | group inner ih => exact ih he false
  | valuePath path filter => exact he.1.elim

theorem negated?_parenthesized {e : Expression} (h : e.negated? = none) :
    (parenthesized false e).negated? = none := by
  cases e with
  | logical op left right => cases op <;> rfl
  | not inner => cases h
  | _ => rfl

/-- The operand of a written negation is an atom, unless it was a double
negation itself. -/
theorem isAtom_of_parenthesized_eq_not {e operand : Expression} (he : e.IsExportable)
    (hdouble : (e.negated? >>= negated?) = none) (h : parenthesized false e = .not operand) :
    operand.isAtom = true := by
  cases e with
  | not inner =>
    have hinner := (each_unparenthesized inner).mpr he
    have hne := negated?_parenthesized (e := inner.unparenthesized) hdouble
    rw [parenthesized_not, negation] at h
    split_ifs at h with hop
    · obtain rfl := Expression.not.inj h
      have hwritable := (isExportable_parenthesized hinner false).isWritable
      refine isAtom_of_isOperand hop hwritable fun x hx => ?_
      rw [hx] at hne
      cases hne
    · obtain rfl := Expression.not.inj h
      rfl
  | logical op left right => cases op <;> cases h
  | compare c => cases h
  | group inner => cases h
  | valuePath path filter => cases h

theorem notsSpelled_negation {e : Expression} (he : e.IsExportable) (h : e.NotsSpelled)
    (hoperand : ∀ operand, e = .not operand → operand.isAtom = true) :
    e.negation.NotsSpelled := by
  unfold negation
  split_ifs with hop
  · refine ⟨?_, h⟩
    cases e with
    | compare c => exact hop
    | logical op left right => cases hop
    | not operand => exact hoperand operand rfl
    | group inner => rfl
    | valuePath path filter => exact he.1.elim
  · exact ⟨rfl, h⟩

/-- Export writes no more than two `!` in a row, when no three `not`s stand in
one another. -/
theorem notsSpelled_parenthesized {e : Expression} (he : e.IsExportable) (hpaired : e.NotsPaired)
    (u : Bool) : (parenthesized u e).NotsSpelled := by
  induction e using operandInduction generalizing u with
  | compare c => trivial
  | logical op left right ihl ihr =>
    cases op with
    | and => exact ⟨ihl he.1 hpaired.1 true, ihr he.2 hpaired.2 true⟩
    | or => cases u <;> exact ⟨ihl he.1 hpaired.1 false, ihr he.2 hpaired.2 false⟩
  | not inner ih =>
    have hinner := (each_unparenthesized inner).mpr he
    have hdouble : (inner.unparenthesized.negated? >>= negated?) = none := by
      simpa [isTripleNot, negated?] using hpaired.1
    rw [parenthesized_not]
    exact notsSpelled_negation (isExportable_parenthesized hinner false)
      (ih hinner hpaired.2.unparenthesized false)
      fun operand h => isAtom_of_parenthesized_eq_not hinner hdouble h
  | group inner ih => exact ih he hpaired false
  | valuePath path filter => exact he.1.elim

/-! ## Chains of the written expression -/

theorem notsSpelled_attach {op : LogicalOperator} {left e : Expression} (hl : left.NotsSpelled) :
    e.NotsSpelled → (attach op left e).NotsSpelled := by
  refine attach_induction (motive := fun e r => e.NotsSpelled → r.NotsSpelled) (fun a b ih => ?_)
    (fun e _ he => ⟨hl, he⟩) e
  exact fun he => ⟨ih he.1, he.2⟩

theorem isAtom_leftNested (e : Expression) : e.leftNested.isAtom = e.isAtom := by
  cases e with
  | logical op left right =>
    exact attach_induction (motive := fun _ r => r.isAtom = false) (fun a b _ => rfl)
      (fun e _ => rfl) right.leftNested
  | _ => rfl

theorem isNegatable_leftNested {e : Expression} (h : e.isNegatable = true) :
    e.leftNested.isNegatable = true := by
  cases e with
  | logical op left right => cases h
  | not inner => exact (isAtom_leftNested inner).trans h
  | compare c => exact h
  | group inner => rfl
  | valuePath path filter => cases h

theorem notsSpelled_leftNested {e : Expression} (h : e.NotsSpelled) :
    e.leftNested.NotsSpelled := by
  induction e with
  | compare c => trivial
  | logical op left right ihl ihr => exact notsSpelled_attach (ihl h.1) (ihr h.2)
  | not inner ih => exact ⟨isNegatable_leftNested h.1, ih h.2⟩
  | group inner ih => exact ih h
  | valuePath path filter ih => exact ih h

theorem celText_attach (op : LogicalOperator) (left e : Expression) :
    (attach op left e).celText = (Expression.logical op left e).celText := by
  refine attach_induction (motive := fun e r => r.celText =
    (Expression.logical op left e).celText) (fun a b ih => ?_) (fun e _ => rfl) e
  cases op <;> simp only [celText, String.append_assoc] at ih ⊢ <;> rw [ih] <;>
    simp only [String.append_assoc]

/-- How chains are nested does not show in the text. -/
theorem celText_leftNested (e : Expression) : e.leftNested.celText = e.celText := by
  induction e with
  | compare c => rfl
  | logical op left right ihl ihr =>
    rw [leftNested_logical, celText_attach]
    cases op <;> simp only [celText, ihl, ihr]
  | not inner ih => simp only [leftNested, celText, ih]
  | group inner ih => simp only [leftNested, celText, ih]
  | valuePath path filter ih => rfl

/-- The expression as CEL reads what export writes. -/
def written (e : Expression) : Expression := (parenthesized false e).leftNested

section

variable {e : Expression}

theorem isExportable_written (he : e.IsExportable) : e.written.IsExportable :=
  (each_leftNested _).mpr (isExportable_parenthesized he false)

theorem toCel_written (he : e.IsWritable) (hd : e.depth ≤ maxDepth) :
    e.toCel .identity = .ok e.written.celText := by
  have htext := toCelAt_identity (u := false) (d := 1) he (by omega)
  rw [written, celText_leftNested]
  exact htext

theorem parse_written (he : e.IsExportable) (hpaired : e.NotsPaired) :
    Tree.parse e.written.celText = .ok e.written.celTree := by
  have hspelled := notsSpelled_parenthesized he hpaired false
  have hgrammatical := isGrammatical_leftNested hspelled.notsOpen.notsTight (orsApart_parenthesized he false)
  exact parse_celText (isExportable_written he) (notsSpelled_leftNested hspelled) hgrammatical

theorem holds_written (truth : List String → Comparison → Bool) :
    e.written.holds truth = e.holds truth := by
  rw [written, holds_leftNested, holds_parenthesized]

theorem comparisons_written : e.written.comparisons = e.comparisons := by
  rw [written, comparisons_leftNested, comparisons_parenthesized]

end

/-! ## What import makes of it -/

/-- Import gives a filter with the same comparisons and the same truth. -/
theorem imports_celTree {e : Expression} (he : e.IsExportable) (u : Bool) :
    ∃ r, Tree.Imports u e.celTree r ∧ r.comparisons = e.comparisons ∧
      ∀ truth, r.holds truth = e.holds truth := by
  fun_induction celTree e generalizing u with
  | case1 c => exact ⟨.compare c, .compare (Cel.comparison?_celTree he), rfl, fun _ => rfl⟩
  | case2 left right ihl ihr =>
    obtain ⟨l, hl, hlc, hlh⟩ := ihl he.1 true
    obtain ⟨r, hr, hrc, hrh⟩ := ihr he.2 true
    refine ⟨.logical .and l r, .and hl hr, ?_, fun truth => ?_⟩
    · simp only [comparisons, hlc, hrc]
    · simp only [holds, hlh, hrh]
  | case3 left right ihl ihr =>
    obtain ⟨l, hl, hlc, hlh⟩ := ihl he.1 false
    obtain ⟨r, hr, hrc, hrh⟩ := ihr he.2 false
    have hcomparisons : (Expression.logical .or l r).comparisons =
        (Expression.logical .or left right).comparisons := by
      simp only [comparisons, hlc, hrc]
    have hholds : ∀ truth, (Expression.logical .or l r).holds truth =
        (Expression.logical .or left right).holds truth := by
      intro truth; simp only [holds, hlh, hrh]
    cases u with
    | false => exact ⟨_, .or hl hr, hcomparisons, hholds⟩
    | true => exact ⟨_, .group hl hr, hcomparisons, hholds⟩
  | case4 inner ih =>
    obtain ⟨r, hr, hrc, hrh⟩ := ih he false
    refine ⟨.not (.not r), .doubleNot hr, hrc, fun truth => ?_⟩
    simp only [holds, hrh]
  | case5 inner hne ih =>
    obtain ⟨r, hr, hrc, hrh⟩ := ih he false
    refine ⟨.not r, .not hr, hrc, fun truth => ?_⟩
    simp only [holds, hrh]
  | case6 inner ih =>
    obtain ⟨r, hr, hrc, hrh⟩ := ih he u
    exact ⟨r, hr, hrc, hrh⟩
  | case7 => exact he.1.elim

/-- Parentheses stand around each `or` that is a direct operand of an `and`
and around nothing else; the flag says whether the expression is one. -/
def GroupsOrs : Bool → Expression → Prop
  | _, .compare _ => True
  | _, .logical .and left right => GroupsOrs true left ∧ GroupsOrs true right
  | underAnd, .logical .or left right =>
    underAnd = false ∧ GroupsOrs false left ∧ GroupsOrs false right
  | _, .not inner => GroupsOrs false inner
  | underAnd, .group (.logical .or left right) =>
    underAnd = true ∧ GroupsOrs false left ∧ GroupsOrs false right
  | _, .group _ => False
  | _, .valuePath _ filter => GroupsOrs false filter

theorem groupsOrs_of_imports {u : Bool} {t : Tree} {e : Expression} (h : Tree.Imports u t e) :
    GroupsOrs u e := by
  induction h with
  | compare => trivial
  | notCompare => trivial
  | and _ _ ihl ihr => exact ⟨ihl, ihr⟩
  | or _ _ ihl ihr => exact ⟨rfl, ihl, ihr⟩
  | group _ _ ihl ihr => exact ⟨rfl, ihl, ihr⟩
  | not _ ih => exact ih
  | doubleNot _ ih => exact ih

/-! ## Depth -/

/-- The number of nested operators, and one. -/
def operatorDepth : Expression → Nat
  | .compare _ => 1
  | .logical _ left right => max left.operatorDepth right.operatorDepth + 1
  | .not inner => inner.operatorDepth + 1
  | .group inner => inner.operatorDepth
  | .valuePath _ _ => 1

theorem operatorDepth_le_depth (e : Expression) : e.operatorDepth ≤ e.depth := by
  induction e with
  | compare c => exact Nat.le_refl 1
  | logical op left right ihl ihr => simp only [operatorDepth, depth]; omega
  | not inner ih => exact Nat.succ_le_succ ih
  | group inner ih => exact Nat.le_succ_of_le ih
  | valuePath path filter ih => exact Nat.succ_le_succ (Nat.zero_le _)

theorem operatorDepth_negation (e : Expression) :
    e.negation.operatorDepth = e.operatorDepth + 1 := by
  unfold negation
  split <;> rfl

theorem operatorDepth_unparenthesized (e : Expression) :
    e.unparenthesized.operatorDepth = e.operatorDepth := by
  cases e <;> rfl

theorem operatorDepth_parenthesized (u : Bool) (e : Expression) :
    (parenthesized u e).operatorDepth = e.operatorDepth := by
  induction e using operandInduction generalizing u with
  | compare c => rfl
  | logical op left right ihl ihr =>
    cases op <;> cases u <;> simp only [parenthesized, operatorDepth, ihl, ihr]
  | not inner ih =>
    rw [parenthesized_not, operatorDepth_negation, ih, operatorDepth_unparenthesized]
    rfl
  | group inner ih => exact ih false
  | valuePath path filter => rfl

/-- The tree is no deeper than the operators are nested. -/
theorem levels_celTree_le {e : Expression} (he : e.IsExportable) :
    e.celTree.levels ≤ e.operatorDepth := by
  fun_induction celTree e with
  | case1 c => exact Nat.le_of_eq (Tree.levels_of_comparison? (Cel.comparison?_celTree he))
  | case2 left right ihl ihr =>
    have hl := ihl he.1
    have hr := ihr he.2
    simp only [Tree.levels, operatorDepth]; omega
  | case3 left right ihl ihr =>
    have hl := ihl he.1
    have hr := ihr he.2
    simp only [Tree.levels, operatorDepth]; omega
  | case4 inner ih =>
    have h := ih he
    simp only [Tree.levels, operatorDepth]; omega
  | case5 inner _ ih =>
    have h := ih he
    simp only [Tree.levels, operatorDepth]; omega
  | case6 inner ih => exact ih he
  | case7 => exact he.1.elim

theorem isLogical_parenthesized {e : Expression} (h : e.isLogical = false) (u : Bool) :
    (parenthesized u e).isLogical = false := by
  cases e with
  | logical op left right => cases h
  | not inner => rw [parenthesized_not, negation]; split <;> rfl
  | _ => rfl

theorem isOr_parenthesized_of_isOr {e : Expression} (h : e.isOr = false) (u : Bool) :
    (parenthesized u e).isOr = false := by
  cases e with
  | logical op left right =>
    cases op with
    | and => rfl
    | or => cases h
  | not inner => rw [parenthesized_not]; exact isOr_negation _
  | _ => rfl

theorem isGrammatical_negation {e : Expression} (h : e.IsGrammatical) :
    e.negation.IsGrammatical := by
  unfold negation
  split_ifs with hop
  · exact ⟨isLogical_of_isOperand hop, h⟩
  · exact ⟨rfl, h⟩

/-- The written form of an expression of the grammar is one, too. -/
theorem isGrammatical_parenthesized {e : Expression} (h : e.IsGrammatical) (u : Bool) :
    (parenthesized u e).IsGrammatical := by
  induction e using operandInduction generalizing u with
  | compare c => trivial
  | logical op left right ihl ihr =>
    cases op with
    | and =>
      obtain ⟨-, hright, hl, hr⟩ := h
      exact ⟨isOr_parenthesized left, isLogical_parenthesized hright true, ihl hl true,
        ihr hr true⟩
    | or =>
      obtain ⟨hright, hl, hr⟩ := h
      have hor := isOr_parenthesized_of_isOr hright false
      cases u <;> exact ⟨hor, ihl hl false, ihr hr false⟩
  | not inner ih =>
    have hinner : inner.unparenthesized.IsGrammatical := by
      cases inner <;> exact h.2
    rw [parenthesized_not]
    exact isGrammatical_negation (ih hinner false)
  | group inner ih => exact ih h false
  | valuePath path filter => exact h

/-- The tree of an expression of the grammar is no deeper than the
expression. -/
theorem levels_written_le {e : Expression} (he : e.IsExportable) (h : e.IsGrammatical) :
    e.written.celTree.levels ≤ e.depth := by
  have hwritten : e.written = parenthesized false e :=
    leftNested_eq_self (isGrammatical_parenthesized h false)
  calc e.written.celTree.levels
      ≤ e.written.operatorDepth := levels_celTree_le (isExportable_written he)
    _ = e.operatorDepth := by rw [hwritten, operatorDepth_parenthesized]
    _ ≤ e.depth := operatorDepth_le_depth e

end PolicyDialects.Filter.Expression

namespace PolicyDialects.Condition

open Cel (Tree)
open PolicyDialects.Filter (Comparison Expression)

/-- Export followed by import keeps a condition, however it is nested: it has
the same comparisons and the same truth, and parentheses exactly around each
`or` that is a direct operand of an `and`. What import refuses for its depth is
a text of its own, unless it comes from an expression that was read. -/
theorem filterOfCel_toCel {e : Expression} (he : e.IsExportable) (hpaired : e.NotsPaired)
    (hdepth : e.depth ≤ Expression.maxDepth)
    (hlevels : (∀ text t, e.toCel .identity = .ok text → Tree.parse text = .ok t →
      t.levels ≤ Expression.maxDepth) ∨ ∃ filter, Expression.parse filter = .ok e) :
    ∃ text r, e.toCel .identity = .ok text ∧ filterOfCel .identity text = .ok r ∧
      r.comparisons = e.comparisons ∧ (∀ truth, r.holds truth = e.holds truth) ∧
      Expression.GroupsOrs false r := by
  have htext := Expression.toCel_written he.isWritable hdepth
  have hparse := Expression.parse_written he hpaired
  have htree : e.written.celTree.levels ≤ Expression.maxDepth := by
    rcases hlevels with h | ⟨filter, hfilter⟩
    · exact h _ _ htext hparse
    · exact Nat.le_trans (Expression.levels_written_le he (Filter.isGrammatical_of_parse hfilter))
        hdepth
  obtain ⟨r, himports, hcomparisons, hholds⟩ :=
    Expression.imports_celTree (Expression.isExportable_written he) false
  have hfilter : filterOfCel .identity e.written.celText = .ok r := by
    unfold filterOfCel
    rw [hparse]
    exact Tree.toFilterAt_eq_ok_iff.mpr ⟨himports, by omega⟩
  refine ⟨e.written.celText, r, htext, hfilter, ?_, fun truth => ?_,
    Expression.groupsOrs_of_imports himports⟩
  · rw [hcomparisons, Expression.comparisons_written]
  · rw [hholds, Expression.holds_written]

/-- `(a.b eq "x\"" or c pr) and not not d in [1, -2]`, the `or` without a node
for its parentheses. -/
def bareOr : Expression :=
  .and (.or (.compare (.with "a.b" .eq (.string "x\""))) (.compare (.present "c")))
    (.not (.not (.compare (.with "d" .in (.list [.integer 1, .integer (-2)])))))

theorem filterOfCel_toCel_bareOr :
    bareOr.IsExportable ∧ bareOr.NotsPaired ∧ bareOr.depth ≤ Expression.maxDepth ∧
      ∃ text r, bareOr.toCel .identity = .ok text ∧ filterOfCel .identity text = .ok r ∧
        r.comparisons = bareOr.comparisons ∧ (∀ truth, r.holds truth = bareOr.holds truth) ∧
        Expression.GroupsOrs false r :=
  have he : bareOr.IsExportable := by decide
  have hpaired : bareOr.NotsPaired := by decide
  have hdepth : bareOr.depth ≤ Expression.maxDepth := by decide
  have hlevels : ∀ text t, bareOr.toCel .identity = .ok text → Tree.parse text = .ok t →
      t.levels ≤ Expression.maxDepth := by
    intro text t htext hparse
    obtain rfl := Except.ok.inj (htext.symm.trans (Expression.toCel_written he.isWritable hdepth))
    obtain rfl := Except.ok.inj (hparse.symm.trans (Expression.parse_written he hpaired))
    decide
  ⟨he, hpaired, hdepth, filterOfCel_toCel he hpaired hdepth (.inl hlevels)⟩

end PolicyDialects.Condition
