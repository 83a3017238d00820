import PolicyDialects.Proofs.Filter.Reading

/-!
# Printed filters read back

Results:

* `parse_text_of_isPrintable`: reading undoes printing. What comes back is the
  canonical form: chains nested to the left, and the operand of every `not` in
  one pair of parentheses.
-/

namespace PolicyDialects.Filter

open Text

/-- A path of the grammar: one word, and no keyword. -/
structure IsPath (path : String) : Prop where
  unbroken : IsUnbroken path
  free : isReserved path = false

instance : DecidablePred IsPath := fun path =>
  decidable_of_iff (IsUnbroken path ∧ isReserved path = false)
    ⟨fun h => ⟨h.1, h.2⟩, fun h => ⟨h.unbroken, h.free⟩⟩

instance (op : CompareOperator) : DecidablePred (Value.Suits op)
  | .list items => inferInstanceAs (Decidable (op = .in ∧ ∀ item ∈ items, item.isList = false))
  | .string _ | .integer _ | .float _ | .boolean _ => isTrue trivial

instance : DecidablePred Comparison.IsLegible := fun c =>
  decidable_of_iff (isReserved c.path = false ∧ ∀ v ∈ c.value, v.Suits c.operator)
    ⟨fun h => ⟨h.1, h.2⟩, fun h => ⟨h.free, h.suits⟩⟩

/-- A comparison with a path of the grammar, a value exactly when the operator
takes one, lists only after `in` and without lists inside, and finite
doubles. -/
structure Comparison.IsPrintable (c : Comparison) : Prop where
  path : IsPath c.path
  value_iff : c.value.isSome = true ↔ c.operator ≠ .pr
  suits : ∀ v ∈ c.value, v.Suits c.operator
  finite : ∀ v ∈ c.value, v.FloatsFinite

instance : DecidablePred Comparison.IsPrintable := fun c =>
  decidable_of_iff (IsPath c.path ∧ (c.value.isSome = true ↔ c.operator ≠ .pr) ∧
      (∀ v ∈ c.value, v.Suits c.operator) ∧ ∀ v ∈ c.value, v.FloatsFinite)
    ⟨fun h => ⟨h.1, h.2.1, h.2.2.1, h.2.2.2⟩, fun h => ⟨h.path, h.value_iff, h.suits, h.finite⟩⟩

namespace Expression

/-- Paths of the grammar, printable comparisons, and no `or` that is a direct
operand of an `and`. -/
structure IsPrintable (e : Expression) : Prop where
  parts : e.Each IsPath Comparison.IsPrintable
  orsApart : e.OrsApart

instance : DecidablePred IsPrintable := fun e =>
  decidable_of_iff (e.Each IsPath Comparison.IsPrintable ∧ e.OrsApart)
    ⟨fun h => ⟨h.1, h.2⟩, fun h => ⟨h.parts, h.orsApart⟩⟩

theorem IsPrintable.isLexical {e : Expression} (h : e.IsPrintable) : e.IsLexical :=
  h.parts.imp (fun _ hp => hp.unbroken) fun _ hc => ⟨hc.path.unbroken, hc.value_iff, hc.finite⟩

theorem IsPrintable.isLegible {e : Expression} (h : e.IsPrintable) : e.IsLegible :=
  h.parts.imp (fun _ hp => hp.free) fun _ hc => ⟨hc.path.free, hc.suits⟩

/-- Reading undoes printing, when the canonical form is not too deep. -/
theorem parse_text_of_isPrintable {e : Expression} (he : e.IsPrintable)
    (hnesting : e.canonical.nesting < maxNesting) (hdepth : e.canonical.depth ≤ maxDepth) :
    Expression.parse e.text = .ok e.canonical :=
  (parse_text he.isLexical he.orsApart).1 ⟨he.isLegible, hnesting, hdepth⟩

/-- `not(a eq -5) or emails[type in ["w\"k", true]] or b pr`, the chain nested
to the right and the operand of `not` without a node for its parentheses. -/
def rightNested : Expression :=
  .or (.not (.compare (.with "a" .eq (.integer (-5)))))
    (.or (.valuePath "emails" (.compare (.with "type" .in (.list [.string "w\"k", .boolean true]))))
      (.compare (.present "b")))

theorem parse_text_rightNested :
    rightNested.IsPrintable ∧ rightNested.canonical.nesting < maxNesting ∧
      rightNested.canonical.depth ≤ maxDepth ∧
      Expression.parse rightNested.text = .ok rightNested.canonical :=
  have hp : rightNested.IsPrintable := by decide
  ⟨hp, by decide, by decide, parse_text_of_isPrintable hp (by decide) (by decide)⟩

end Expression

end PolicyDialects.Filter
