import PolicyDialects.Proofs.Condition.Refusal

/-!
# Exported conditions that can be imported

A filter of comparisons of dotted names with finite values is always exported.
Its text is imported unless it has three `!` in a row, which is so exactly when
three `not`s stand in one another.

Results:

* `notsPaired_of_notsSpelled`: export writes three `!` in a row for three
  `not`s.
* `filterOfCel_celOfFilter_iff`: which exported texts are imported.
-/

namespace PolicyDialects.Filter.Expression

/-- The negation of a written expression has one `!` more. -/
theorem NotsSpelled.of_negation {e : Expression} (h : e.negation.NotsSpelled) : e.NotsSpelled := by
  unfold negation at h
  split_ifs at h
  · exact h.2
  · exact h.2

theorem NotsPaired.of_unparenthesized {e : Expression} (h : e.unparenthesized.NotsPaired) :
    e.NotsPaired := by
  cases e <;> exact h

/-- What `not` is written as is an operand of the next `!`. -/
theorem negation_not (e : Expression) : (Expression.not e).negation = .not (.not e) := rfl

theorem exists_negation_eq (e : Expression) : ∃ operand, e.negation = .not operand := by
  unfold negation
  split
  · exact ⟨_, rfl⟩
  · exact ⟨_, rfl⟩

/-- Two `not`s in one another are written with two `!`. -/
theorem exists_parenthesized_eq_not_not {e : Expression}
    (h : (e.negated? >>= negated?).isSome = true) (u : Bool) :
    ∃ operand, parenthesized u e = .not (.not operand) := by
  cases e with
  | not inner =>
    have hinner : inner.unparenthesized.negated?.isSome = true := h
    generalize hoperand : inner.unparenthesized = operand at hinner
    cases operand with
    | not second =>
      rw [parenthesized_not, hoperand, parenthesized_not]
      obtain ⟨third, hthird⟩ := exists_negation_eq (parenthesized false second.unparenthesized)
      rw [hthird, negation_not]
      exact ⟨third, rfl⟩
    | _ => cases hinner
  | _ => cases h

/-- Export writes three `!` in a row, when three `not`s stand in one another. -/
theorem notsPaired_of_notsSpelled {e : Expression} (he : e.IsExportable) {u : Bool}
    (h : (parenthesized u e).NotsSpelled) : e.NotsPaired := by
  induction e using operandInduction generalizing u with
  | compare c => trivial
  | logical op left right ihl ihr =>
    cases op with
    | and => exact ⟨ihl he.1 h.1, ihr he.2 h.2⟩
    | or => cases u <;> exact ⟨ihl he.1 h.1, ihr he.2 h.2⟩
  | not inner ih =>
    have hinner := (each_unparenthesized inner).mpr he
    rw [parenthesized_not] at h
    refine ⟨?_, NotsPaired.of_unparenthesized (ih hinner h.of_negation)⟩
    rw [Bool.eq_false_iff]
    intro htriple
    obtain ⟨operand, hoperand⟩ :=
      exists_parenthesized_eq_not_not (e := inner.unparenthesized) htriple false
    rw [hoperand, negation_not] at h
    -- a `!` in front of two others is no operand
    exact Bool.false_ne_true h.1
  | group inner ih => exact ih he h
  | valuePath path filter => exact he.1.elim

/-- Of an expression of the grammar, the text is read exactly if no three
`not`s stand in one another. -/
theorem exists_parse_written_iff {e : Expression} (he : e.IsExportable) (hg : e.IsGrammatical) :
    (∃ t, Cel.Tree.parse e.written.celText = .ok t) ↔ e.NotsPaired := by
  constructor
  · rintro ⟨t, ht⟩
    have hwritten : e.written = parenthesized false e :=
      leftNested_eq_self (isGrammatical_parenthesized hg false)
    apply notsPaired_of_notsSpelled he (u := false)
    by_contra hnots
    obtain ⟨err, herr⟩ := exists_parse_eq_error (isExportable_parenthesized he false)
      (notsOpen_parenthesized he.isWritable false) (isGrammatical_parenthesized hg false) hnots
    rw [hwritten, herr] at ht
    cases ht
  · intro hpaired
    exact ⟨_, parse_written he hpaired⟩

end PolicyDialects.Filter.Expression

namespace PolicyDialects.Condition

open Cel (Tree)
open PolicyDialects.Filter (Comparison Expression)

/-- A filter that was read, of dotted names and finite values, is exported, and
its text is imported exactly if no three `not`s stand in one another. -/
theorem filterOfCel_celOfFilter_iff {filter : String} {e : Expression}
    (h : Expression.parse filter = .ok e) (he : e.IsExportable) :
    ∃ text, celOfFilter .identity filter = .ok text ∧
      ((∃ r, filterOfCel .identity text = .ok r) ↔ e.NotsPaired) := by
  obtain ⟨ts, -, hspells, -, hdepth⟩ := Filter.spells_of_parse h
  have hg := hspells.isGrammatical
  have htext : celOfFilter .identity filter = .ok e.written.celText := by
    unfold celOfFilter
    rw [h]
    exact Expression.toCel_written he.isWritable hdepth
  refine ⟨e.written.celText, htext, ?_⟩
  constructor
  · rintro ⟨r, hr⟩
    obtain ⟨t, ht, -⟩ := bind_eq_ok.mp hr
    exact (Expression.exists_parse_written_iff he hg).mp ⟨t, ht⟩
  · intro hpaired
    obtain ⟨r, himports, -⟩ :=
      Expression.imports_celTree (Expression.isExportable_written he) false
    have hlevels := Expression.levels_written_le he hg
    refine ⟨r, bind_eq_ok.mpr ⟨_, Expression.parse_written he hpaired, ?_⟩⟩
    exact Tree.toFilterAt_eq_ok_iff.mpr ⟨himports, by omega⟩

/-- `not not (a eq 1 or not b pr) and c pr`. -/
def doubleNots : Expression :=
  .and (.not (.not (.group (.or (.compare (.with "a" .eq (.integer 1)))
    (.not (.compare (.present "b"))))))) (.compare (.present "c"))

theorem filterOfCel_celOfFilter_doubleNots :
    Expression.parse "not not (a eq 1 or not b pr) and c pr" = .ok doubleNots ∧
      doubleNots.IsExportable ∧ doubleNots.NotsPaired ∧
      ∃ text r, celOfFilter .identity "not not (a eq 1 or not b pr) and c pr" = .ok text ∧
        filterOfCel .identity text = .ok r := by
  have hparse : Expression.parse "not not (a eq 1 or not b pr) and c pr" = .ok doubleNots := by
    decide +kernel
  have he : doubleNots.IsExportable := by decide
  have hpaired : doubleNots.NotsPaired := by decide
  obtain ⟨text, htext, hread⟩ := filterOfCel_celOfFilter_iff hparse he
  obtain ⟨r, hr⟩ := hread.mpr hpaired
  exact ⟨hparse, he, hpaired, text, r, htext, hr⟩

/-- Three negations are exported as a text that is not imported. -/
theorem filterOfCel_tripleNot :
    celOfFilter .identity "not not not a pr" = .ok "!!!has(a)" ∧
      ∀ r, filterOfCel .identity "!!!has(a)" ≠ .ok r := by
  refine ⟨by decide +kernel, ?_⟩
  intro r hr
  have hnone : (filterOfCel .identity "!!!has(a)").toOption = none := by decide +kernel
  rw [hr] at hnone
  cases hnone

end PolicyDialects.Condition
