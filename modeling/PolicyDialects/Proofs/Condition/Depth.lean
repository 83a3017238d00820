import PolicyDialects.Proofs.Condition.Usable

/-!
# The depth of imported conditions

Import bounds the levels of a CEL condition. The filter that it makes may have
two nodes for one level: `!!` becomes two `not`s, an `||` below an `&&` gets
parentheses, and `!a == v` is the negation of a comparison.

* `Tree.filterDepth` — the depth of the filter of a condition.

Results:

* `depth_eq_of_imports`: an imported filter has that depth.
* `depth_of_filterOfCel`: it is at most twice the bound. What the reader of
  filters returns keeps the bound.
* `depth_doubleBangs`: the bound itself may be exceeded.
-/

namespace PolicyDialects.Cel.Tree

open PolicyDialects.Filter (Expression)

/-- The depth of the filter of a condition; `underAnd` says whether it is an
operand of `&&`. -/
def filterDepth (underAnd : Bool) : Tree → Nat
  | .and left right => max (left.filterDepth true) (right.filterDepth true) + 1
  | .or left right =>
    max (left.filterDepth false) (right.filterDepth false) + if underAnd then 2 else 1
  | .unary .not inner => inner.filterDepth false + 1
  | .unary .doubleNot inner => inner.filterDepth false + 2
  | .relation _ (.unary .not _) _ => 2
  | _ => 1

/-- No level of a condition is lost, and none has more than two nodes. -/
theorem filterDepth_bounds (u : Bool) (t : Tree) :
    t.levels ≤ t.filterDepth u ∧ t.filterDepth u ≤ 2 * t.levels := by
  fun_induction levels t generalizing u with
  | case1 left right ihl ihr =>
    have hl := ihl true
    have hr := ihr true
    simp only [filterDepth]
    omega
  | case2 left right ihl ihr =>
    have hl := ihl false
    have hr := ihr false
    simp only [filterDepth]
    split <;> omega
  | case3 inner ih =>
    have hi := ih false
    simp only [filterDepth]
    omega
  | case4 inner ih =>
    have hi := ih false
    simp only [filterDepth]
    omega
  | case5 t hand hor hnot hdoubleNot =>
    unfold filterDepth
    split
    · exact absurd rfl (hand _ _)
    · exact absurd rfl (hor _ _)
    · exact absurd rfl (hnot _)
    · exact absurd rfl (hdoubleNot _)
    · decide
    · decide

theorem depth_eq_of_imports {u : Bool} {t : Tree} {e : Expression} (h : Imports u t e) :
    e.depth = t.filterDepth u := by
  induction h with
  | @compare u t c h =>
    rcases comparison?_eq_some h with ⟨op, left, right, path, value, rfl, hpath, -⟩ |
      ⟨_, _, rfl, -⟩ | ⟨_, _, _, _, _, _, rfl, -⟩
    · cases left <;> first | rfl | cases hpath
    · rfl
    · rfl
  | notCompare => rfl
  | and _ _ ihl ihr => rw [filterDepth, ← ihl, ← ihr]; rfl
  | or _ _ ihl ihr => rw [filterDepth, ← ihl, ← ihr]; rfl
  | group _ _ ihl ihr => rw [filterDepth, ← ihl, ← ihr]; rfl
  | not _ ih => rw [filterDepth, ← ih]; rfl
  | doubleNot _ ih => rw [filterDepth, ← ih]; rfl

end PolicyDialects.Cel.Tree

namespace PolicyDialects.Condition

open Cel (Tree)
open PolicyDialects.Filter (Comparison Expression)
open PolicyDialects.Filter.Expression (negations depth_negations)

/-- An imported filter is as deep as its condition says, which has at most as
many levels as the bound. What the reader of filters returns is itself no deeper
than the bound. -/
theorem depth_of_filterOfCel (names : NameMap) (cel filter : String) :
    (∀ e, filterOfCel names cel = .ok e →
        ∃ t, Tree.parse cel = .ok t ∧ e.depth = t.filterDepth false ∧
          t.levels ≤ Expression.maxDepth ∧ t.levels ≤ e.depth ∧ e.depth ≤ 2 * t.levels) ∧
      ∀ e, Expression.parse filter = .ok e → e.depth ≤ Expression.maxDepth := by
  constructor
  · intro e h
    obtain ⟨t, hparse, hfilter⟩ := bind_eq_ok.mp h
    obtain ⟨⟨e₀, himports, rfl⟩, hlevels⟩ := Tree.exists_imports_of_toFilterAt hfilter
    have hdepth := Tree.depth_eq_of_imports himports
    obtain ⟨hlower, hupper⟩ := t.filterDepth_bounds false
    rw [Expression.depth_mapPaths, hdepth]
    exact ⟨t, hparse, rfl, by omega, hlower, hupper⟩
  · intro e h
    obtain ⟨ts, -, -, -, hdepth⟩ := Filter.spells_of_parse h
    exact hdepth

/-- `not(not(a pr)) and (b eq 1 or not(c eq true))`. -/
def mixedFilter : Expression :=
  .and (.not (.not (.compare (.present "a")))) (.group (.or
    (.compare (.with "b" .eq (.integer 1))) (.not (.compare (.with "c" .eq (.boolean true))))))

theorem depth_mixedFilter :
    filterOfCel .identity "!!has(a) && (b == 1 || !c == true)" = .ok mixedFilter ∧
      (∃ t, Tree.parse "!!has(a) && (b == 1 || !c == true)" = .ok t ∧ t.filterDepth false = 5 ∧
        5 ≤ 2 * t.levels) ∧
      Expression.parse "not not a pr" = .ok (negations 2) ∧
      (negations 2).depth ≤ Expression.maxDepth := by
  have he : filterOfCel .identity "!!has(a) && (b == 1 || !c == true)" = .ok mixedFilter := by
    decide +kernel
  have hfilter : Expression.parse "not not a pr" = .ok (negations 2) := by decide +kernel
  obtain ⟨hcel, hread⟩ := depth_of_filterOfCel .identity
    "!!has(a) && (b == 1 || !c == true)" "not not a pr"
  obtain ⟨t, hparse, hdepth, -, -, hupper⟩ := hcel _ he
  exact ⟨he, ⟨t, hparse, hdepth.symm, hupper⟩, hfilter, hread _ hfilter⟩

/-! ## Conditions that double their depth -/

/-- `!!(` in front of `has(a)`, a number of times, and the parentheses that close
it. -/
def doubleBangs : Nat → String
  | 0 => "has(a)"
  | n + 1 => "!!(" ++ doubleBangs n ++ ")"

/-- The expression that is written so. -/
def doubled : Nat → Expression
  | 0 => .compare (.present "a")
  | n + 1 => .not (.not (.group (doubled n)))

theorem celText_doubled (n : Nat) : (doubled n).celText = doubleBangs n := by
  induction n with
  | zero => rfl
  | succ n ih =>
    rw [doubleBangs, ← ih, ← String.toList_inj]
    simp [doubled, Expression.celText]

theorem isExportable_doubled (n : Nat) : (doubled n).IsExportable := by
  induction n with
  | zero => decide
  | succ n ih => exact ih

theorem notsSpelled_doubled (n : Nat) : (doubled n).NotsSpelled := by
  induction n with
  | zero => trivial
  | succ n ih => exact ⟨rfl, rfl, ih⟩

theorem isGrammatical_doubled (n : Nat) : (doubled n).IsGrammatical := by
  induction n with
  | zero => trivial
  | succ n ih => exact ⟨rfl, rfl, ih⟩

theorem imports_doubled (n : Nat) :
    Tree.Imports false (doubled n).celTree (negations (2 * n)) ∧
      (doubled n).celTree.levels = n + 1 := by
  induction n with
  | zero => exact ⟨.compare rfl, rfl⟩
  | succ n ih => exact ⟨.doubleNot ih.1, congrArg (· + 1) ih.2⟩

theorem filterOfCel_doubleBangs {n : Nat} (h : n < Expression.maxDepth) :
    filterOfCel .identity (doubleBangs n) = .ok (negations (2 * n)) := by
  obtain ⟨himports, hlevels⟩ := imports_doubled n
  rw [← celText_doubled]
  exact filterOfCel_celText (isExportable_doubled n) (notsSpelled_doubled n)
    (isGrammatical_doubled n) himports (by omega)

/-- 256 pairs of negations are 257 levels of CEL, and a filter that is deeper than
the bound. With 511 pairs the levels are at the bound, and the filter is nearly
twice as deep. -/
theorem depth_doubleBangs :
    filterOfCel .identity (doubleBangs 256) = .ok (negations 512) ∧
      Expression.maxDepth < (negations 512).depth ∧
      filterOfCel .identity (doubleBangs 511) = .ok (negations 1022) ∧
      (negations 1022).depth = 2 * Expression.maxDepth - 1 := by
  refine ⟨filterOfCel_doubleBangs (by decide), ?_, filterOfCel_doubleBangs (by decide), ?_⟩
  · rw [depth_negations]
    decide
  · rw [depth_negations]
    decide

end PolicyDialects.Condition
