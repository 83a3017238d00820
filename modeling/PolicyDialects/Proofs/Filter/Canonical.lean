import Mathlib.Tactic.Common
import PolicyDialects.Filter.Grammar

/-!
# Expressions as the grammar nests them

A printed expression does not show how a chain of one operator was nested, nor
whether the operand of `not` had parentheses. `leftNested` and `enclosed` are
the two choices that reading makes.

Results:

* `isGrammatical_canonical`: with both choices made, an expression in which no
  `or` is a direct operand of an `and` is one of the grammar.
* `holds_canonical`, `comparisons_canonical`: they do not change what it means.
* `each_canonical`: nor its paths and comparisons.
-/

namespace PolicyDialects.Filter

namespace Expression

/-! ## Parts of an expression -/

/-- Every path of a value filter and every comparison has a property. -/
def Each (path : String → Prop) (comparison : Comparison → Prop) : Expression → Prop
  | .compare c => comparison c
  | .logical _ left right => left.Each path comparison ∧ right.Each path comparison
  | .not inner => inner.Each path comparison
  | .group inner => inner.Each path comparison
  | .valuePath p filter => path p ∧ filter.Each path comparison

/-- No `or` is a direct operand of an `and`. -/
def OrsApart : Expression → Prop
  | .compare _ => True
  | .logical op left right =>
    (op = .and → left.isOr = false ∧ right.isOr = false) ∧ left.OrsApart ∧ right.OrsApart
  | .not inner => inner.OrsApart
  | .group inner => inner.OrsApart
  | .valuePath _ filter => filter.OrsApart

/-- Chains nest to the left, `and` binds tighter than `or`, and `not` tighter
than both. -/
def IsGrammatical : Expression → Prop
  | .compare _ => True
  | .logical .and left right =>
    left.isOr = false ∧ right.isLogical = false ∧ left.IsGrammatical ∧ right.IsGrammatical
  | .logical .or left right =>
    right.isOr = false ∧ left.IsGrammatical ∧ right.IsGrammatical
  | .not inner => inner.isLogical = false ∧ inner.IsGrammatical
  | .group inner => inner.IsGrammatical
  | .valuePath _ filter => filter.IsGrammatical

instance Each.decidable {p : String → Prop} {q : Comparison → Prop} [DecidablePred p]
    [DecidablePred q] : (e : Expression) → Decidable (e.Each p q)
  | .compare c => inferInstanceAs (Decidable (q c))
  | .logical _ left right => @instDecidableAnd _ _ (Each.decidable left) (Each.decidable right)
  | .not inner => Each.decidable inner
  | .group inner => Each.decidable inner
  | .valuePath path filter => @instDecidableAnd (p path) _ inferInstance (Each.decidable filter)

instance OrsApart.decidable : (e : Expression) → Decidable e.OrsApart
  | .compare _ => isTrue trivial
  | .logical _ left right =>
    @instDecidableAnd _ _ inferInstance
      (@instDecidableAnd _ _ (OrsApart.decidable left) (OrsApart.decidable right))
  | .not inner => OrsApart.decidable inner
  | .group inner => OrsApart.decidable inner
  | .valuePath _ filter => OrsApart.decidable filter

theorem Each.imp {p q : String → Prop} {r s : Comparison → Prop} (hpath : ∀ w, p w → q w)
    (hcompare : ∀ c, r c → s c) {e : Expression} (h : e.Each p r) : e.Each q s := by
  induction e with
  | compare c => exact hcompare c h
  | logical op left right ihl ihr => exact ⟨ihl h.1, ihr h.2⟩
  | not inner ih => exact ih h
  | group inner ih => exact ih h
  | valuePath path filter ih => exact ⟨hpath path h.1, ih h.2⟩

theorem Each.and {p q : String → Prop} {r s : Comparison → Prop} {e : Expression}
    (h : e.Each p r) (h' : e.Each q s) : e.Each (fun w => p w ∧ q w) fun c => r c ∧ s c := by
  induction e with
  | compare c => exact ⟨h, h'⟩
  | logical op left right ihl ihr => exact ⟨ihl h.1 h'.1, ihr h.2 h'.2⟩
  | not inner ih => exact ih h h'
  | group inner ih => exact ih h h'
  | valuePath path filter ih => exact ⟨⟨h.1, h'.1⟩, ih h.2 h'.2⟩

/-- What every comparison has, without a condition on the paths of value
filters. -/
theorem each_iff_forall_comparisons {property : Comparison → Prop} {e : Expression} :
    e.Each (fun _ => True) property ↔ ∀ c ∈ e.comparisons, property c := by
  induction e with
  | compare c => simp [Each, comparisons]
  | logical op left right ihl ihr => simp only [Each, comparisons, ihl, ihr, List.forall_mem_append]
  | not inner ih => exact ih
  | group inner ih => exact ih
  | valuePath path filter ih => simp only [Each, comparisons, ih, true_and]

theorem Each.of_mem_comparisons {path : String → Prop} {property : Comparison → Prop}
    {e : Expression} (h : e.Each path property) {c : Comparison} (hc : c ∈ e.comparisons) :
    property c :=
  each_iff_forall_comparisons.mp (h.imp (fun _ _ => trivial) fun _ hd => hd) c hc

theorem isOr_of_isLogical_eq_false {e : Expression} (h : e.isLogical = false) :
    e.isOr = false := by
  cases e <;> first | rfl | cases h

/-- Induction in which the operand of `not` stands without one pair of
parentheses around it. -/
@[elab_as_elim]
theorem operandInduction {motive : Expression → Prop} (compare : ∀ c, motive (.compare c))
    (logical : ∀ op left right, motive left → motive right → motive (.logical op left right))
    (not : ∀ inner, motive inner.unparenthesized → motive (.not inner))
    (group : ∀ inner, motive inner → motive (.group inner))
    (valuePath : ∀ path filter, motive filter → motive (.valuePath path filter)) :
    (e : Expression) → motive e := by
  have hboth : ∀ e : Expression, motive e ∧ motive e.unparenthesized := by
    intro e
    induction e with
    | compare c => exact ⟨compare c, compare c⟩
    | logical op left right ihl ihr =>
      have h := logical op left right ihl.1 ihr.1
      exact ⟨h, h⟩
    | not inner ih => exact ⟨not inner ih.2, not inner ih.2⟩
    | group inner ih => exact ⟨group inner ih.1, ih.1⟩
    | valuePath path filter ih => exact ⟨valuePath path filter ih.1, valuePath path filter ih.1⟩
  exact fun e => (hboth e).1

/-! ## Chains nested to the left -/

/-- Joins `left` in front of a chain of `op`. -/
def attach (op : LogicalOperator) (left : Expression) : Expression → Expression
  | .logical op' a b =>
    if op' = op then .logical op (attach op left a) b else .logical op left (.logical op' a b)
  | e => .logical op left e

/-- The expression with every chain of one operator nested to the left. -/
def leftNested : Expression → Expression
  | .compare c => .compare c
  | .logical op left right => attach op left.leftNested right.leftNested
  | .not inner => .not inner.leftNested
  | .group inner => .group inner.leftNested
  | .valuePath path filter => .valuePath path filter.leftNested

theorem leftNested_logical (op : LogicalOperator) (left right : Expression) :
    (logical op left right).leftNested = attach op left.leftNested right.leftNested := rfl

/-- What is no chain of the operator becomes its last operand. -/
theorem attach_eq_logical {op : LogicalOperator} {e : Expression}
    (h : ∀ a b, e ≠ .logical op a b) (left : Expression) :
    attach op left e = .logical op left e := by
  cases e with
  | logical op' a b =>
    have hop : op' ≠ op := fun heq => h a b (by rw [heq])
    rw [attach, if_neg hop]
  | _ => rfl

/-- Joining in front of a chain is joining to its first operand or to all of
it; what holds of both holds of the result. -/
theorem attach_induction {op : LogicalOperator} {left : Expression}
    {motive : Expression → Expression → Prop}
    (chain : ∀ a b, motive a (attach op left a) →
      motive (.logical op a b) (.logical op (attach op left a) b))
    (whole : ∀ e, (∀ a b, e ≠ .logical op a b) → motive e (.logical op left e))
    (e : Expression) : motive e (attach op left e) := by
  induction e with
  | logical op' a b iha =>
    unfold attach
    split_ifs with h
    · subst h; exact chain a b iha
    · exact whole _ fun a' b' heq => h (by cases heq; rfl)
  | compare c => exact whole _ (by simp)
  | not inner => exact whole _ (by simp)
  | group inner => exact whole _ (by simp)
  | valuePath path filter => exact whole _ (by simp)

theorem isOr_attach (op : LogicalOperator) (left e : Expression) :
    (attach op left e).isOr = (Expression.logical op left e).isOr := by
  refine attach_induction (motive := fun e r => r.isOr = (Expression.logical op left e).isOr)
    (fun a b _ => ?_) (fun e _ => rfl) e
  cases op <;> rfl

theorem holds_attach (truth : List String → Comparison → Bool) (op : LogicalOperator)
    (left e : Expression) :
    (attach op left e).holds truth = (Expression.logical op left e).holds truth := by
  refine attach_induction (motive := fun e r => r.holds truth =
    (Expression.logical op left e).holds truth) (fun a b ih => ?_) (fun e _ => rfl) e
  cases op with
  | and => simp only [holds] at ih ⊢; rw [ih, Bool.and_assoc]
  | or => simp only [holds] at ih ⊢; rw [ih, Bool.or_assoc]

theorem comparisons_attach (op : LogicalOperator) (left e : Expression) :
    (attach op left e).comparisons = left.comparisons ++ e.comparisons := by
  refine attach_induction (motive := fun e r => r.comparisons =
    left.comparisons ++ e.comparisons) (fun a b ih => ?_) (fun e _ => rfl) e
  simp only [comparisons] at ih ⊢
  rw [ih, List.append_assoc]

theorem each_attach {path : String → Prop} {comparison : Comparison → Prop}
    (op : LogicalOperator) (left e : Expression) :
    (attach op left e).Each path comparison ↔
      left.Each path comparison ∧ e.Each path comparison := by
  refine attach_induction (motive := fun e r => r.Each path comparison ↔
    left.Each path comparison ∧ e.Each path comparison) (fun a b ih => ?_) (fun e _ => Iff.rfl) e
  simp only [Each] at ih ⊢
  rw [ih, and_assoc]

/-- Joining two expressions of the grammar gives one. -/
theorem isGrammatical_attach {op : LogicalOperator} {left : Expression}
    (hl : left.IsGrammatical) (hleft : op = .and → left.isOr = false) (e : Expression) :
    e.IsGrammatical → (op = .and → e.isOr = false) → (attach op left e).IsGrammatical := by
  refine attach_induction (motive := fun e r => e.IsGrammatical → (op = .and → e.isOr = false) →
    r.IsGrammatical) (fun a b ih => ?_) (fun e hne => ?_) e
  · intro he _
    cases op with
    | and =>
      obtain ⟨ha, hb, hga, hgb⟩ := he
      exact ⟨by rw [isOr_attach]; rfl, hb, ih hga fun _ => ha, hgb⟩
    | or =>
      obtain ⟨hb, hga, hgb⟩ := he
      exact ⟨hb, ih hga (by simp), hgb⟩
  · intro he hor
    cases op with
    | and =>
      refine ⟨hleft rfl, ?_, hl, he⟩
      cases e with
      | logical op' a b =>
        cases op' with
        | and => exact absurd rfl (hne a b)
        | or => cases hor rfl
      | _ => rfl
    | or =>
      refine ⟨?_, hl, he⟩
      cases e with
      | logical op' a b =>
        cases op' with
        | and => rfl
        | or => exact absurd rfl (hne a b)
      | _ => rfl

theorem isOr_leftNested (e : Expression) : e.leftNested.isOr = e.isOr := by
  cases e with
  | logical op left right =>
    rw [leftNested_logical, isOr_attach]
    cases op <;> rfl
  | _ => rfl

theorem isLogical_leftNested (e : Expression) : e.leftNested.isLogical = e.isLogical := by
  cases e with
  | logical op left right =>
    refine attach_induction (motive := fun _ r => r.isLogical = true) (fun a b _ => rfl)
      (fun e _ => rfl) right.leftNested
  | _ => rfl

theorem holds_leftNested (truth : List String → Comparison → Bool) (e : Expression) :
    e.leftNested.holds truth = e.holds truth := by
  induction e generalizing truth with
  | compare c => rfl
  | logical op left right ihl ihr =>
    rw [leftNested_logical, holds_attach]
    cases op <;> simp only [holds, ihl, ihr]
  | not inner ih => exact congrArg (! ·) (ih truth)
  | group inner ih => exact ih truth
  | valuePath path filter ih => exact ih _

theorem comparisons_leftNested (e : Expression) : e.leftNested.comparisons = e.comparisons := by
  induction e with
  | compare c => rfl
  | logical op left right ihl ihr =>
    rw [leftNested_logical, comparisons_attach, ihl, ihr]; rfl
  | not inner ih => exact ih
  | group inner ih => exact ih
  | valuePath path filter ih => exact ih

theorem each_leftNested {path : String → Prop} {comparison : Comparison → Prop}
    (e : Expression) : e.leftNested.Each path comparison ↔ e.Each path comparison := by
  induction e with
  | compare c => rfl
  | logical op left right ihl ihr =>
    rw [leftNested_logical, each_attach, ihl, ihr]; rfl
  | not inner ih => exact ih
  | group inner ih => exact ih
  | valuePath p filter ih => exact and_congr_right fun _ => ih

/-! ## Enclosed operands of `not` -/

/-- The expression with the operand of every `not` in one pair of
parentheses. -/
def enclosed : Expression → Expression
  | .compare c => .compare c
  | .logical op left right => .logical op left.enclosed right.enclosed
  | .not (.group inner) => .not (.group inner.enclosed)
  | .not inner => .not (.group inner.enclosed)
  | .group inner => .group inner.enclosed
  | .valuePath path filter => .valuePath path filter.enclosed

theorem enclosed_not (inner : Expression) :
    (Expression.not inner).enclosed = .not (.group inner.unparenthesized.enclosed) := by
  cases inner <;> rfl

/-- No `not` stands directly in front of a chain. -/
def NotsTight : Expression → Prop
  | .compare _ => True
  | .logical _ left right => left.NotsTight ∧ right.NotsTight
  | .not inner => inner.isLogical = false ∧ inner.NotsTight
  | .group inner => inner.NotsTight
  | .valuePath _ filter => filter.NotsTight

/-- What holds of comparisons and goes from the operands to the whole holds of
every expression with its enclosed form. -/
theorem enclosed_induction {motive : Expression → Expression → Prop}
    (compare : ∀ c, motive (.compare c) (.compare c))
    (logical : ∀ op left right, motive left left.enclosed → motive right right.enclosed →
      motive (.logical op left right) (.logical op left.enclosed right.enclosed))
    (notGroup : ∀ inner, motive inner inner.enclosed →
      motive (.not (.group inner)) (.not (.group inner.enclosed)))
    (not : ∀ inner, motive inner inner.enclosed →
      motive (.not inner) (.not (.group inner.enclosed)))
    (group : ∀ inner, motive inner inner.enclosed →
      motive (.group inner) (.group inner.enclosed))
    (valuePath : ∀ path filter, motive filter filter.enclosed →
      motive (.valuePath path filter) (.valuePath path filter.enclosed))
    (e : Expression) : motive e e.enclosed := by
  fun_induction enclosed e with
  | case1 c => exact compare c
  | case2 op left right ihl ihr => exact logical op left right ihl ihr
  | case3 inner ih => exact notGroup inner ih
  | case4 inner _ ih => exact not inner ih
  | case5 inner ih => exact group inner ih
  | case6 path filter ih => exact valuePath path filter ih

theorem isOr_enclosed (e : Expression) : e.enclosed.isOr = e.isOr := by
  refine enclosed_induction (motive := fun e r => r.isOr = e.isOr) (fun _ => rfl) ?_
    (fun _ _ => rfl) (fun _ _ => rfl) (fun _ _ => rfl) (fun _ _ _ => rfl) e
  intro op left right _ _
  cases op <;> rfl

theorem holds_enclosed (truth : List String → Comparison → Bool) (e : Expression) :
    e.enclosed.holds truth = e.holds truth := by
  refine enclosed_induction (motive := fun e r => ∀ truth, r.holds truth = e.holds truth)
    (fun _ _ => rfl) ?_ (fun _ ih truth => congrArg (! ·) (ih truth))
    (fun _ ih truth => congrArg (! ·) (ih truth)) (fun _ ih => ih) (fun _ _ ih _ => ih _) e truth
  intro op left right ihl ihr truth
  cases op <;> simp only [holds, ihl, ihr]

theorem comparisons_enclosed (e : Expression) : e.enclosed.comparisons = e.comparisons := by
  refine enclosed_induction (motive := fun e r => r.comparisons = e.comparisons) (fun _ => rfl) ?_
    (fun _ ih => ih) (fun _ ih => ih) (fun _ ih => ih) (fun _ _ ih => ih) e
  intro op left right ihl ihr
  simp only [comparisons, ihl, ihr]

theorem each_enclosed {path : String → Prop} {comparison : Comparison → Prop} (e : Expression) :
    e.enclosed.Each path comparison ↔ e.Each path comparison :=
  enclosed_induction (motive := fun e r => r.Each path comparison ↔ e.Each path comparison)
    (fun _ => Iff.rfl) (fun _ _ _ ihl ihr => and_congr ihl ihr) (fun _ ih => ih) (fun _ ih => ih)
    (fun _ ih => ih) (fun _ _ ih => and_congr_right fun _ => ih) e

theorem orsApart_enclosed {e : Expression} (h : e.OrsApart) : e.enclosed.OrsApart := by
  refine enclosed_induction (motive := fun e r => e.OrsApart → r.OrsApart) (fun _ _ => trivial) ?_
    (fun _ ih => ih) (fun _ ih => ih) (fun _ ih => ih) (fun _ _ ih => ih) e h
  rintro op left right ihl ihr ⟨hor, hl, hr⟩
  refine ⟨fun hop => ?_, ihl hl, ihr hr⟩
  rw [isOr_enclosed, isOr_enclosed]
  exact hor hop

theorem notsTight_enclosed (e : Expression) : e.enclosed.NotsTight :=
  enclosed_induction (motive := fun _ r => r.NotsTight) (fun _ => trivial)
    (fun _ _ _ ihl ihr => ⟨ihl, ihr⟩) (fun _ ih => ⟨rfl, ih⟩) (fun _ ih => ⟨rfl, ih⟩)
    (fun _ ih => ih) (fun _ _ ih => ih) e

/-- Left-nested, an expression in which operators are apart as in the grammar
is one of the grammar. -/
theorem isGrammatical_leftNested {e : Expression} (hnots : e.NotsTight) (hors : e.OrsApart) :
    e.leftNested.IsGrammatical := by
  induction e with
  | compare c => trivial
  | logical op left right ihl ihr =>
    obtain ⟨hor, hl, hr⟩ := hors
    refine isGrammatical_attach (ihl hnots.1 hl) (fun hop => ?_) _ (ihr hnots.2 hr) fun hop => ?_
    · rw [isOr_leftNested]; exact (hor hop).1
    · rw [isOr_leftNested]; exact (hor hop).2
  | not inner ih =>
    refine ⟨?_, ih hnots.2 hors⟩
    rw [isLogical_leftNested]
    exact hnots.1
  | group inner ih => exact ih hnots hors
  | valuePath path filter ih => exact ih hnots hors

/-- An expression of the grammar is nested to the left. -/
theorem leftNested_eq_self {e : Expression} (h : e.IsGrammatical) : e.leftNested = e := by
  induction e with
  | compare c => rfl
  | logical op left right ihl ihr =>
    cases op with
    | and =>
      obtain ⟨-, hright, hgl, hgr⟩ := h
      rw [leftNested_logical, ihl hgl, ihr hgr, attach_eq_logical]
      rintro a b rfl
      cases hright
    | or =>
      obtain ⟨hright, hgl, hgr⟩ := h
      rw [leftNested_logical, ihl hgl, ihr hgr, attach_eq_logical]
      rintro a b rfl
      cases hright
  | not inner ih => exact congrArg Expression.not (ih h.2)
  | group inner ih => exact congrArg Expression.group (ih h)
  | valuePath path filter ih => exact congrArg (Expression.valuePath path) (ih h)

theorem enclosed_attach (op : LogicalOperator) (left e : Expression) :
    (attach op left e).enclosed = attach op left.enclosed e.enclosed := by
  refine attach_induction (motive := fun e r => r.enclosed = attach op left.enclosed e.enclosed)
    (fun a b ih => ?_) (fun e hne => ?_) e
  · rw [enclosed, ih, enclosed, attach, if_pos rfl]
  · refine (attach_eq_logical (fun a b heq => ?_) _).symm
    cases e with
    | logical op' a' b' =>
      obtain ⟨rfl, -, -⟩ := Expression.logical.inj heq
      exact hne a' b' rfl
    | not inner =>
      rw [enclosed_not] at heq
      cases heq
    | _ => cases heq

theorem unparenthesized_leftNested (e : Expression) :
    e.leftNested.unparenthesized = e.unparenthesized.leftNested := by
  cases e with
  | logical op left right =>
    exact attach_induction (motive := fun _ r => r.unparenthesized = r) (fun _ _ _ => rfl)
      (fun _ _ => rfl) right.leftNested
  | _ => rfl

/-- Chains are nested in the same way inside and outside of parentheses. -/
theorem enclosed_leftNested (e : Expression) : e.leftNested.enclosed = e.enclosed.leftNested := by
  induction e using operandInduction with
  | compare c => rfl
  | logical op left right ihl ihr =>
    rw [leftNested_logical, enclosed_attach, ihl, ihr]
    rfl
  | not inner ih =>
    rw [enclosed_not, leftNested, enclosed_not, unparenthesized_leftNested, ih]
    rfl
  | group inner ih => exact congrArg Expression.group ih
  | valuePath path filter ih => exact congrArg (Expression.valuePath path) ih

/-- The expression as it is read back from its text. -/
def canonical (e : Expression) : Expression := e.enclosed.leftNested

theorem holds_canonical (truth : List String → Comparison → Bool) (e : Expression) :
    e.canonical.holds truth = e.holds truth := by
  rw [canonical, holds_leftNested, holds_enclosed]

theorem comparisons_canonical (e : Expression) : e.canonical.comparisons = e.comparisons := by
  rw [canonical, comparisons_leftNested, comparisons_enclosed]

theorem each_canonical {path : String → Prop} {comparison : Comparison → Prop} (e : Expression) :
    e.canonical.Each path comparison ↔ e.Each path comparison := by
  rw [canonical, each_leftNested, each_enclosed]

theorem isGrammatical_canonical {e : Expression} (h : e.OrsApart) : e.canonical.IsGrammatical :=
  isGrammatical_leftNested (notsTight_enclosed e) (orsApart_enclosed h)

end Expression

end PolicyDialects.Filter
