import PolicyDialects.Proofs.Condition.PlainPaths

/-!
# Constants and their types

A constant is written alike in filters and in CEL, and both read it as the value
that it is: words that were strings are written in quotation marks, and numbers
with as many digits as tell them from others. Only the doubles that are no
numbers have no spelling. A decimal number that is too large for a double is
read as one of them.

Results:

* `Value.readByFilter_iff`: filters read the text of a value that suits them as
  the value exactly if its doubles are finite.
* `toFilter_celTree`: the tree of a comparison makes it under any map of names.
* `keeps_iff_floatsFinite`: a value of a filter that was read keeps its value and
  its type in both languages exactly if its doubles are finite.
-/

namespace PolicyDialects.Filter

/-! ## Values of filters that were read -/

namespace Value

/-- At the right of every path and every operator that can take the value,
filters read its text as the value. -/
def ReadByFilter (v : Value) : Prop :=
  ∀ path op, IsPath path → op ≠ .pr → v.Suits op →
    Expression.parse (path ++ " " ++ op.keyword ++ " " ++ v.text) =
      .ok (.compare (.with path op v))

/-- What the text of a value is read as. -/
theorem parse_compare_text {path : String} {op : CompareOperator} {v : Value} (hpath : IsPath path)
    (hop : op ≠ .pr) (hsuits : v.Suits op) :
    Expression.parse (path ++ " " ++ op.keyword ++ " " ++ v.text) =
      .ok (.compare (.with path op v.reread)) := by
  have hwell : (Expression.compare (.with path op v)).IsWellFormed :=
    ⟨hpath.unbroken, by simpa [Comparison.with] using hop⟩
  have hlegible : (Expression.compare (.with path op v)).IsLegible := by
    refine ⟨hpath.free, fun w hw => ?_⟩
    obtain rfl : v = w := Option.some.inj hw
    exact hsuits
  have hread := (Expression.parse_text_eq_ok_iff hwell hlegible trivial).mpr
    ⟨rfl, show 0 < maxNesting by decide, show 1 ≤ Expression.maxDepth by decide⟩
  have htext : (Comparison.with path op v).text = path ++ " " ++ op.keyword ++ " " ++ v.text :=
    if_neg hop
  rwa [Expression.text, htext] at hread

/-- Finite doubles are what it takes. -/
theorem readByFilter_iff {v : Value} {op : CompareOperator} (hop : op ≠ .pr) (hsuits : v.Suits op) :
    v.ReadByFilter ↔ v.FloatsFinite := by
  constructor
  · intro h
    have hread := h "a" op (by decide) hop hsuits
    rw [parse_compare_text (by decide) hop hsuits] at hread
    have hself : v.reread = v := by simpa [Comparison.with] using hread
    exact hself ▸ hsuits.floatsFinite_reread
  · intro hfinite path op' hpath hop' hsuits'
    rw [parse_compare_text hpath hop' hsuits', reread_eq_self hfinite]

end Value

end PolicyDialects.Filter

namespace PolicyDialects.Cel

open PolicyDialects.Filter

/-! ## Import of one comparison -/

theorem selectAll_ne_unary {e : Tree} (he : ∀ op inner, e ≠ .unary op inner) (names : List String)
    (op : Negation) (inner : Tree) : selectAll e names ≠ .unary op inner := by
  induction names generalizing e with
  | nil => exact he op inner
  | cons n ns ih => exact ih fun _ _ h => by cases h

/-- The tree of a comparison makes it, under the name that the map has for its
path. -/
theorem toFilter_celTree {names : NameMap} {c : Comparison} {path : String} (hc : c.IsExportable)
    (hpath : names.resolveIdql c.path = .ok path) :
    c.celTree.toFilter names = .ok (.compare { c with path := path }) := by
  have hbound : ¬Expression.maxDepth < 1 := by decide
  have htree : (pathTree c.path).path names = .ok path := by
    unfold Tree.path
    rw [selectPath_pathTree hc.path]
    exact hpath
  obtain ⟨p, op, value⟩ := c
  unfold Tree.toFilter Comparison.celTree
  cases celShape hc.value_iff with
  | presence hop hvalue =>
    dsimp only at hop hvalue htree
    subst hop hvalue
    show Tree.toFilterAt names false 1 (.call "has" [pathTree p]) = _
    rw [Tree.toFilterAt, if_neg hbound]
    show Tree.callFilter names none "has" [pathTree p] = _
    rw [Tree.callFilter, if_pos rfl]
    dsimp only
    rw [htree]
    rfl
  | relation v symbol s r hvalue hform hrelation hsymbol hs hrel hop =>
    dsimp only at hvalue hform hrelation hop htree
    subst hvalue
    rw [hform, hrelation]
    show Tree.toFilterAt names false 1 (.relation r (pathTree p) v.celTree) = _
    rw [Tree.toFilterAt, if_neg hbound]
    show Tree.relationFilter names (pathTree p) r v.celTree = _
    unfold Tree.relationFilter
    rw [constantValue_celTree]
    dsimp only [bind, Except.bind]
    split
    · rename_i inner htree
      exact absurd htree (selectAll_ne_unary (fun _ _ h => by cases h) _ _ _)
    · rw [htree, hop]
      rfl
  | method v name hvalue hform hop =>
    dsimp only at hvalue hform hop htree
    subst hvalue
    rw [hform]
    show Tree.toFilterAt names false 1 (.methodCall (pathTree p) name [v.celTree]) = _
    rw [Tree.toFilterAt, if_neg hbound]
    show Tree.callFilter names (some (pathTree p)) name [v.celTree] = _
    have hhas := (Tree.methodOperator?_eq_some hop).1
    unfold Tree.callFilter
    rw [if_neg hhas, hop]
    dsimp only
    rw [htree, constantValue_celTree]
    rfl

/-- The text of a constant is read as its tree. -/
theorem parse_text_value {v : Value} (h : v.FloatsFinite) : Tree.parse v.text = .ok v.celTree := by
  have hlexes := lexes_value v h endsLiteral_nil lexes_nil
  rw [List.append_nil, List.append_nil] at hlexes
  have hread := (readMember_value v h).readUnary.readComparison
  exact hread.readAnd.readOr.readExpr.parse_eq hlexes

end PolicyDialects.Cel

namespace PolicyDialects.Condition

open Cel (IsPlainPath Tree)
open PolicyDialects.Filter (Comparison CompareOperator Expression IsAttributePath Value)

/-! ## Values in both languages -/

/-- CEL reads the text of the value as the value. Behind every path that CEL has
for an attribute, and with every operator, what export writes is a text of which
the import makes a comparison with the value. -/
structure ReadByCel (v : Value) : Prop where
  constant : (Tree.parse v.text >>= Tree.constantValue) = .ok v
  comparison : ∀ names path provider idql op, names.resolveProvider path = .ok provider →
    IsAttributePath provider → names.resolveIdql provider = .ok idql → op ≠ .pr →
    ∃ cel, (Expression.compare (.with path op v)).toCel names = .ok cel ∧
      filterOfCel names cel = .ok (.compare (.with idql op v))

/-- Export of one comparison, and import of its text. -/
theorem filterOfCel_comparison {v : Value} (h : v.FloatsFinite) {names : NameMap}
    {path provider idql : String} {op : CompareOperator}
    (hprovider : names.resolveProvider path = .ok provider) (hpath : IsAttributePath provider)
    (hidql : names.resolveIdql provider = .ok idql) (hop : op ≠ .pr) :
    ∃ cel, (Expression.compare (.with path op v)).toCel names = .ok cel ∧
      filterOfCel names cel = .ok (.compare (.with idql op v)) := by
  obtain rfl := NameMap.rename_of_resolve hprovider
  have hc : (Comparison.with (names.toProvider path) op v).IsExportable := by
    refine ⟨hpath, by simpa [Comparison.with] using hop, fun w hw => ?_⟩
    obtain rfl : v = w := Option.some.inj hw
    exact h
  have htext : (Expression.compare (.with path op v)).toCel names =
      .ok (Comparison.with (names.toProvider path) op v).celText := by
    rw [Expression.toCel, Expression.toCelAt, if_neg (by decide),
      Expression.toCel_mapPath (c := .with path op v) hprovider]
    exact Cel.toCel_identity hc.value_iff
  refine ⟨_, htext, ?_⟩
  have hparse := Expression.parse_celText (e := .compare (.with (names.toProvider path) op v)) hc
    trivial trivial
  show (Tree.parse _ >>= Tree.toFilter names) = _
  rw [Expression.celText] at hparse
  rw [hparse]
  exact Cel.toFilter_celTree hc hidql

/-- Finite doubles are what it takes. -/
theorem readByCel_iff {v : Value} : ReadByCel v ↔ v.FloatsFinite := by
  constructor
  · intro h
    obtain ⟨cel, hcel, hfilter⟩ :=
      h.comparison .identity "a" "a" "a" .eq rfl (by decide) rfl (by decide)
    have hplain : (Expression.compare (.with "a" .eq v)).IsPlain :=
      ⟨⟨show Filter.IsUnbroken "a" by decide, by simp [Comparison.with]⟩,
        show IsPlainPath "a" by decide⟩
    obtain ⟨t, hparse, hfilter⟩ := bind_eq_ok.mp hfilter
    obtain ⟨himports, -⟩ := Tree.imports_of_toFilterAt hfilter
    obtain rfl := Except.ok.inj (hcel.symm.trans (Expression.toCel_written hplain.isWritable
      (show 1 ≤ Expression.maxDepth by decide)))
    exact (hplain.isExportable_of_imports hparse himports).finite v rfl
  · intro h
    refine ⟨?_, fun _ _ _ _ _ hprovider hpath hidql hop =>
      filterOfCel_comparison h hprovider hpath hidql hop⟩
    rw [Cel.parse_text_value h]
    exact Cel.constantValue_celTree v

/-- A value that stands in a filter keeps its value and its type when its text is
read again, be it in a filter or, behind export, in CEL, exactly if all doubles
in it are finite. -/
theorem keeps_iff_floatsFinite {text : String} {e : Expression} {c : Comparison} {v : Value}
    (h : Expression.parse text = .ok e) (hc : c ∈ e.comparisons) (hv : c.value = some v) :
    (v.ReadByFilter ↔ v.FloatsFinite) ∧ (ReadByCel v ↔ v.FloatsFinite) := by
  obtain ⟨hwell, hlegible⟩ := Filter.parts_of_parse h
  have hop : c.operator ≠ .pr :=
    (hwell.of_mem_comparisons hc).value_iff.mp (by rw [hv]; rfl)
  have hsuits : v.Suits c.operator := (hlegible.of_mem_comparisons hc).suits v hv
  exact ⟨Value.readByFilter_iff hop hsuits, readByCel_iff⟩

/-- Leading zeros, a negative zero, a double with an exponent, an integer out of
range and a control character, all of them spelled anew. -/
def mixedItems : Value :=
  .list [.integer 7, .float (.ofDecimal true 0 0), .float (.ofDecimal false 1 21),
    .string "9223372036854775808", .string "q\u0007", .boolean true]

theorem keeps_mixedItems :
    Expression.parse "a in [007, -0.0, 1e21, 9223372036854775808, \"q\\u0007\", TRUE]" =
        .ok (.compare (.with "a" .in mixedItems)) ∧
      mixedItems.ReadByFilter ∧ ReadByCel mixedItems := by
  have hparse :
      Expression.parse "a in [007, -0.0, 1e21, 9223372036854775808, \"q\\u0007\", TRUE]" =
        .ok (.compare (.with "a" .in mixedItems)) := by decide +kernel
  have hfinite : mixedItems.FloatsFinite := by decide +kernel
  obtain ⟨hfilter, hcel⟩ := keeps_iff_floatsFinite hparse (List.mem_singleton.mpr rfl) rfl
  exact ⟨hparse, hfilter.mpr hfinite, hcel.mpr hfinite⟩

/-- A decimal number that is too large comes back from a filter as a string, and
not at all from CEL, where its text is the negation of a name. -/
theorem not_keeps_overflow :
    Expression.parse "a eq -1e400" = .ok (.compare (.with "a" .eq (.float (.infinite true)))) ∧
      Expression.parse ("a eq " ++ (Value.float (.infinite true)).text) =
        .ok (.compare (.with "a" .eq (.string "-inf"))) ∧
      (Expression.compare (.with "a" .eq (.float (.infinite true)))).toCel .identity =
        .ok "a == -inf" ∧
      filterOfCel .identity "a == -inf" =
        .error (.unsupportedShape "expected a constant, found Ident(\"inf\")") := by
  refine ⟨?_, ?_, ?_, ?_⟩ <;> decide +kernel

end PolicyDialects.Condition
