import PolicyDialects.Proofs.Condition.PlainPaths
import PolicyDialects.Proofs.Condition.Usable

/-!
# Conditions that settle

Export puts parentheses where CEL needs them, and import keeps none but those
around an `or` below an `and`. Both leave alone what import has returned, so a
filter that went to CEL and back does not change when it goes again.

Results:

* `imports_regrouped`: what import makes of the tree of an expression, as a
  function.
* `regrouped_parenthesized`, `regrouped_canonical`: neither the parentheses of
  export nor those of printing matter to it.
* `leftNested_of_isImported`: what comes back of a filter that import has returned.
* `filterTextOfCel_settles`: the text of a filter after one trip stays as it is.
* `celOfFilter_settles`: so does the text of a CEL condition, whatever it was.
-/

namespace PolicyDialects

open PolicyDialects.Filter (Comparison Expression IsAttributePath IsUnbroken LogicalOperator)

/-! ## Paths -/

theorem Cel.isPlainPath_of_isAttributePath {path : String} (h : IsAttributePath path) :
    IsPlainPath path := by
  have hsign : ∀ y, Text.isIdentPart y = true →
      (y ≠ '=' ∧ y ≠ '<' ∧ y ≠ '>') ∧ y ≠ '!' ∧ y ≠ '.' := by
    intro y hy
    have hascii := toNat_lt_of_isIdentPart hy
    revert hy
    exact Text.of_ascii hascii (by decide)
  constructor
  · intro c hc
    rcases isIdentPart_of_mem_path h hc with rfl | hpart
    · decide
    · exact (hsign c hpart).1
  · obtain ⟨x, xs, hxs, hx⟩ := exists_start_path h
    intro c hc
    rw [hxs] at hc
    obtain rfl : x = c := Option.some.inj hc
    exact (hsign x (by simp [Text.isIdentPart, hx])).2

namespace Filter.Expression

open Cel (Tree)

/-! ## What import makes of an expression -/

/-- The expression with parentheses around each `or` that is an operand of an
`and` and around nothing else; the flag says whether it is one itself. -/
def regrouped : Bool → Expression → Expression
  | _, .compare c => .compare c
  | _, .logical .and left right => .logical .and (regrouped true left) (regrouped true right)
  | true, .logical .or left right =>
    .group (.logical .or (regrouped false left) (regrouped false right))
  | false, .logical .or left right =>
    .logical .or (regrouped false left) (regrouped false right)
  | _, .not inner => .not (regrouped false inner)
  | underAnd, .group inner => regrouped underAnd inner
  | _, .valuePath path filter => .valuePath path (regrouped false filter)

theorem imports_regrouped {e : Expression} (he : e.IsExportable) (u : Bool) :
    Tree.Imports u e.celTree (regrouped u e) := by
  fun_induction celTree e generalizing u with
  | case1 c => exact .compare (Cel.comparison?_celTree he)
  | case2 left right ihl ihr => exact .and (ihl he.1 true) (ihr he.2 true)
  | case3 left right ihl ihr =>
    cases u with
    | false => exact .or (ihl he.1 false) (ihr he.2 false)
    | true => exact .group (ihl he.1 false) (ihr he.2 false)
  | case4 inner ih => exact .doubleNot (ih he false)
  | case5 inner _ ih => exact .not (ih he false)
  | case6 inner ih => exact ih he u
  | case7 => exact he.1.elim

theorem each_regrouped {path : String → Prop} {comparison : Comparison → Prop} (u : Bool)
    (e : Expression) : (regrouped u e).Each path comparison ↔ e.Each path comparison := by
  induction e generalizing u with
  | compare c => rfl
  | logical op left right ihl ihr =>
    cases op with
    | and => exact and_congr (ihl true) (ihr true)
    | or => cases u <;> exact and_congr (ihl false) (ihr false)
  | not inner ih => exact ih false
  | group inner ih => exact ih u
  | valuePath path filter ih => exact and_congr_right fun _ => ih false

theorem regrouped_negation (u : Bool) (e : Expression) :
    regrouped u e.negation = .not (regrouped false e) := by
  unfold negation
  split <;> rfl

theorem regrouped_unparenthesized (u : Bool) (e : Expression) :
    regrouped u e.unparenthesized = regrouped u e := by
  cases e <;> rfl

/-- Import does not look at the parentheses that export writes. -/
theorem regrouped_parenthesized (u v : Bool) (e : Expression) :
    regrouped u (parenthesized v e) = regrouped u e := by
  induction e using operandInduction generalizing u v with
  | compare c => rfl
  | logical op left right ihl ihr =>
    cases op with
    | and => simp only [parenthesized, regrouped, ihl, ihr]
    | or => cases v <;> cases u <;> simp only [parenthesized, regrouped, ihl, ihr]
  | not inner ih =>
    rw [parenthesized_not, regrouped_negation, ih, regrouped_unparenthesized]
    rfl
  | group inner ih => exact ih u false
  | valuePath path filter => rfl

/-- Nor at those that are written after `not`. -/
theorem regrouped_enclosed (u : Bool) (e : Expression) :
    regrouped u e.enclosed = regrouped u e := by
  refine enclosed_induction (motive := fun e r => ∀ u, regrouped u r = regrouped u e)
    (fun _ _ => rfl) ?_ (fun _ ih _ => congrArg Expression.not (ih false))
    (fun _ ih _ => congrArg Expression.not (ih false)) (fun _ ih => ih)
    (fun path _ ih _ => congrArg (Expression.valuePath path) (ih false)) e u
  intro op left right ihl ihr u
  cases op with
  | and => simp only [regrouped, ihl, ihr]
  | or => cases u <;> simp only [regrouped, ihl, ihr]

/-- What is grouped as import groups it stays as it is. -/
theorem regrouped_eq_self {u : Bool} {e : Expression} (h : GroupsOrs u e) : regrouped u e = e := by
  fun_induction GroupsOrs u e with
  | case1 => rfl
  | case2 _ left right ihl ihr => rw [regrouped, ihl h.1, ihr h.2]
  | case3 _ left right ihl ihr =>
    obtain ⟨rfl, hl, hr⟩ := h
    rw [regrouped, ihl hl, ihr hr]
  | case4 _ inner ih => rw [regrouped, ih h]
  | case5 _ left right ihl ihr =>
    obtain ⟨rfl, hl, hr⟩ := h
    rw [regrouped, regrouped, ihl hl, ihr hr]
  | case6 => exact h.elim
  | case7 _ path filter ih => rw [regrouped, ih h]

/-! ## Chains -/

theorem groupsOrs_group {u : Bool} {inner : Expression} :
    GroupsOrs u (.group inner) ↔ u = true ∧ inner.isOr = true ∧ GroupsOrs false inner := by
  cases inner with
  | logical op left right => cases op <;> simp [GroupsOrs, isOr]
  | _ => simp [GroupsOrs, isOr]

theorem groupsOrs_attach {u : Bool} {op : LogicalOperator} {left e : Expression}
    (h : GroupsOrs u (.logical op left e)) : GroupsOrs u (attach op left e) := by
  refine attach_induction (motive := fun e r => ∀ u, GroupsOrs u (.logical op left e) →
    GroupsOrs u r) (fun a b ih u => ?_) (fun e _ _ h => h) e u h
  cases op with
  | and =>
    rintro ⟨hleft, ha, hb⟩
    exact ⟨ih true ⟨hleft, ha⟩, hb⟩
  | or =>
    rintro ⟨hu, hleft, -, ha, hb⟩
    exact ⟨hu, ih false ⟨rfl, hleft, ha⟩, hb⟩

theorem groupsOrs_leftNested {u : Bool} {e : Expression} (h : GroupsOrs u e) :
    GroupsOrs u e.leftNested := by
  induction e generalizing u with
  | compare c => trivial
  | logical op left right ihl ihr =>
    cases op with
    | and => exact groupsOrs_attach ⟨ihl h.1, ihr h.2⟩
    | or => exact groupsOrs_attach ⟨h.1, ihl h.2.1, ihr h.2.2⟩
  | not inner ih => exact ih h
  | group inner ih =>
    obtain ⟨hu, hor, hinner⟩ := groupsOrs_group.mp h
    exact groupsOrs_group.mpr ⟨hu, (isOr_leftNested inner).trans hor, ih hinner⟩
  | valuePath path filter ih => exact ih h

theorem groupsOrs_reread {u : Bool} {e : Expression} (h : GroupsOrs u e) :
    GroupsOrs u e.reread := by
  induction e generalizing u with
  | compare c => trivial
  | logical op left right ihl ihr =>
    cases op with
    | and => exact ⟨ihl h.1, ihr h.2⟩
    | or => exact ⟨h.1, ihl h.2.1, ihr h.2.2⟩
  | not inner ih => exact ih h
  | group inner ih =>
    obtain ⟨hu, hor, hinner⟩ := groupsOrs_group.mp h
    exact groupsOrs_group.mpr ⟨hu, (isOr_reread inner).trans hor, ih hinner⟩
  | valuePath path filter ih => exact ih h

/-- Reading adds only parentheses that import drops, and nests chains to the
left. -/
theorem regrouped_canonical {u : Bool} {e : Expression} (h : GroupsOrs u e) :
    regrouped u e.canonical = e.leftNested := by
  rw [canonical, ← enclosed_leftNested, regrouped_enclosed,
    regrouped_eq_self (groupsOrs_leftNested h)]

/-- What import returns: dotted names, the values that operators take, no value
filters, and parentheses exactly around each `or` below an `and`. -/
structure IsImported (e : Expression) : Prop where
  parts : e.Each (fun _ => False) fun c => c.IsWellFormed ∧ IsAttributePath c.path
  groupsOrs : GroupsOrs false e
  orsApart : e.OrsApart

section

variable {e f : Expression}

theorem IsImported.isWellFormed (h : e.IsImported) : e.IsWellFormed :=
  h.parts.imp (fun _ => False.elim) fun _ hc => hc.1

theorem IsImported.reread (h : e.IsImported) : e.reread.IsImported where
  parts := (each_reread e).mpr
    (h.parts.imp (fun _ hp => hp) fun _ hc => ⟨hc.1.reread, hc.2⟩)
  groupsOrs := groupsOrs_reread h.groupsOrs
  orsApart := orsApart_reread h.orsApart

/-- The text of what import returns is read, if at all, as a filter that can be
exported; doubles that are no numbers have become strings. -/
theorem IsImported.of_parse_text (h : e.IsImported) (hread : Expression.parse e.text = .ok f) :
    f = e.reread.canonical ∧ f.IsExportable ∧ Expression.parse e.reread.text = .ok f := by
  have hlegible : e.IsLegible := isLegible_of_parse_text h.isWellFormed h.orsApart hread
  obtain ⟨hf, hnesting, hdepth⟩ :=
    (parse_text_eq_ok_iff h.isWellFormed hlegible h.orsApart).mp hread
  rw [← canonical_reread] at hf
  have hfinite : e.reread.FloatsFinite :=
    (each_reread e).mpr (hlegible.imp (fun _ _ => trivial) fun _ hc => hc.floatsFinite_reread)
  have hlegible' : e.reread.IsLegible :=
    (each_reread e).mpr (hlegible.imp (fun _ hp => hp) fun _ hc => hc.reread)
  refine ⟨hf, ?_, ?_⟩
  · rw [hf]
    refine (each_canonical _).mpr ((h.reread.parts.and hfinite).imp (fun _ hp => hp.1) ?_)
    exact fun c hc => ⟨hc.1.2, hc.1.1.value_iff, hc.2⟩
  · refine (parse_text_eq_ok_iff h.reread.isWellFormed hlegible' h.reread.orsApart).mpr ?_
    rw [canonical_reread, nesting_reread, depth_reread,
      reread_eq_self (e := e.canonical.reread)]
    · exact ⟨hf.trans (canonical_reread e), hnesting, hdepth⟩
    · rw [← canonical_reread]
      exact (each_canonical _).mpr hfinite

end

end Filter.Expression

namespace Condition

open Cel (Tree)

/-! ## There and back -/

theorem isImported_of_filterOfCel {cel : String} {e : Expression}
    (h : filterOfCel .identity cel = .ok e) : e.IsImported := by
  obtain ⟨t, hparse, himports⟩ := parse_of_filterOfCel h
  have hnamed := Cel.named_of_parse hparse
  refine ⟨?_, Expression.groupsOrs_of_imports himports, himports.orsApart⟩
  exact ((himports.each Tree.isWellFormed_of_comparison? hnamed).and
    (himports.each Cel.isAttributePath_of_comparison? hnamed)).imp (fun _ hp => hp.1) fun _ hc => hc

/-- The text that export writes for a filter of dotted names is read as the
tree of what was written, if it can be imported. -/
theorem exported_of_filterOfCel {filter cel : String} {e r : Expression}
    (h : Expression.parse filter = .ok e)
    (hpaths : e.Each (fun _ => True) fun c => IsAttributePath c.path)
    (hcel : e.toCel .identity = .ok cel) (hr : filterOfCel .identity cel = .ok r) :
    e.IsExportable ∧ Tree.parse cel = .ok e.written.celTree ∧ r = e.regrouped false := by
  obtain ⟨ts, -, hspells, -, hdepth⟩ := Filter.spells_of_parse h
  have hplain : e.IsPlain :=
    ((Expression.each_of_toCelAt hcel).and
      ((Filter.isWellFormed_of_parse h).and hpaths)).imp (fun _ hp => hp.1) fun _ hc =>
        ⟨hc.2.1, Cel.isPlainPath_of_isAttributePath hc.2.2⟩
  obtain rfl := Except.ok.inj (hcel.symm.trans (Expression.toCel_written hplain.isWritable hdepth))
  obtain ⟨t, ht, hfilter⟩ := bind_eq_ok.mp hr
  obtain ⟨himports, hlevels⟩ := Tree.imports_of_toFilterAt hfilter
  have he := hplain.isExportable_of_imports ht himports
  have hread : Tree.parse e.written.celText = .ok e.written.celTree := by
    rcases Expression.parse_written_or_refused he with hread | ⟨err, herr⟩
    · exact hread
    · rw [herr] at ht
      cases ht
  obtain rfl := Except.ok.inj (ht.symm.trans hread)
  have hwritten : e.written = Expression.parenthesized false e :=
    Expression.leftNested_eq_self (Expression.isGrammatical_parenthesized hspells.isGrammatical _)
  have himports' := Expression.imports_regrouped (Expression.isExportable_written he) false
  have hfilter' := Tree.toFilterAt_eq_ok_iff.mpr ⟨himports', hlevels⟩
  refine ⟨he, hread, ?_⟩
  rw [Except.ok.inj (hfilter.symm.trans hfilter'), hwritten, Expression.regrouped_parenthesized]

theorem parse_of_celOfFilter {names : NameMap} {filter cel : String}
    (h : celOfFilter names filter = .ok cel) :
    ∃ e, Expression.parse filter = .ok e ∧ e.toCel names = .ok cel :=
  bind_eq_ok.mp h

/-- What import has returned comes back as it was, but for the nesting of its
chains and for doubles that are no numbers. -/
theorem leftNested_of_isImported {e r : Expression} {cel : String} (he : e.IsImported)
    (hcel : celOfFilter .identity e.text = .ok cel) (hr : filterOfCel .identity cel = .ok r) :
    r = e.reread.leftNested ∧ celOfFilter .identity e.reread.text = .ok cel := by
  obtain ⟨f, hread, htoCel⟩ := parse_of_celOfFilter hcel
  obtain ⟨hf, hexportable, hread'⟩ := he.of_parse_text hread
  have hpaths : f.Each (fun _ => True) fun c => IsAttributePath c.path :=
    hexportable.imp (fun _ => False.elim) fun _ hc => hc.path
  obtain ⟨-, -, hr⟩ := exported_of_filterOfCel hread hpaths htoCel hr
  refine ⟨?_, bind_eq_ok.mpr ⟨f, hread', htoCel⟩⟩
  rw [hr, hf, Expression.regrouped_canonical he.reread.groupsOrs]

/-- A filter of dotted names that goes to CEL and back has a text that does not
change on any further trip, and neither does its CEL text. -/
theorem filterTextOfCel_settles {filter₀ filter₁ filter₂ cel₁ cel₂ : String} {e : Expression}
    (h : Expression.parse filter₀ = .ok e)
    (hpaths : e.Each (fun _ => True) fun c => IsAttributePath c.path)
    (hcel₁ : celOfFilter .identity filter₀ = .ok cel₁)
    (hfilter₁ : filterTextOfCel .identity cel₁ = .ok filter₁)
    (hcel₂ : celOfFilter .identity filter₁ = .ok cel₂)
    (hfilter₂ : filterTextOfCel .identity cel₂ = .ok filter₂) :
    filter₂ = filter₁ ∧ celOfFilter .identity filter₂ = .ok cel₂ := by
  obtain ⟨r₁, hr₁, htext₁⟩ := bind_eq_ok.mp hfilter₁
  obtain ⟨r₂, hr₂, htext₂⟩ := bind_eq_ok.mp hfilter₂
  cases htext₁
  cases htext₂
  have hcel : e.toCel .identity = .ok cel₁ := by
    unfold celOfFilter at hcel₁
    rwa [h] at hcel₁
  obtain ⟨hexportable, -, hregrouped⟩ := exported_of_filterOfCel h hpaths hcel hr₁
  have hfinite : r₁.FloatsFinite := by
    rw [hregrouped]
    refine (Expression.each_regrouped false e).mpr ?_
    exact hexportable.imp (fun _ => False.elim) fun _ hc => hc.finite
  obtain ⟨hback, -⟩ := leftNested_of_isImported (isImported_of_filterOfCel hr₁) hcel₂ hr₂
  have hsame : r₂.text = r₁.text := by
    rw [hback, Expression.text_leftNested, Expression.reread_eq_self hfinite]
  rw [hsame]
  exact ⟨rfl, hcel₂⟩

/-- `((a eq 1) or b.x pr) and not ((not (c pr or (d pr or a eq 1))))`. -/
def overgrouped : Expression :=
  let first : Expression := .compare (.with "a" .eq (.integer 1))
  let present (path : String) : Expression := .compare (.present path)
  .and (.group (.or (.group first) (present "b.x")))
    (.not (.group (.group (.not (.group (.or (present "c") (.group (.or (present "d") first))))))))

theorem filterTextOfCel_settles_overgrouped :
    Expression.parse "((a eq 1) or b.x pr) and not ((not (c pr or (d pr or a eq 1))))" =
        .ok overgrouped ∧
      celOfFilter .identity "((a eq 1) or b.x pr) and not ((not (c pr or (d pr or a eq 1))))" =
        .ok "((a == 1) || has(b.x)) && !(!(has(c) || (has(d) || a == 1)))" ∧
      filterTextOfCel .identity "((a == 1) || has(b.x)) && !(!(has(c) || (has(d) || a == 1)))" =
        .ok "(a eq 1 or b.x pr) and not(not (c pr or d pr or a eq 1))" ∧
      celOfFilter .identity "(a eq 1 or b.x pr) and not(not (c pr or d pr or a eq 1))" =
        .ok "(a == 1 || has(b.x)) && !!(has(c) || has(d) || a == 1)" ∧
      ∃ filter₂, filterTextOfCel .identity
          "(a == 1 || has(b.x)) && !!(has(c) || has(d) || a == 1)" = .ok filter₂ ∧
        filter₂ = "(a eq 1 or b.x pr) and not(not (c pr or d pr or a eq 1))" ∧
        celOfFilter .identity filter₂ =
          .ok "(a == 1 || has(b.x)) && !!(has(c) || has(d) || a == 1)" := by
  have hparse : Expression.parse
      "((a eq 1) or b.x pr) and not ((not (c pr or (d pr or a eq 1))))" = .ok overgrouped := by
    decide +kernel
  have hpaths : overgrouped.Each (fun _ => True) fun c => IsAttributePath c.path := by
    decide +kernel
  have hcel₁ : celOfFilter .identity
      "((a eq 1) or b.x pr) and not ((not (c pr or (d pr or a eq 1))))" =
      .ok "((a == 1) || has(b.x)) && !(!(has(c) || (has(d) || a == 1)))" := by decide +kernel
  have hfilter₁ : filterTextOfCel .identity
      "((a == 1) || has(b.x)) && !(!(has(c) || (has(d) || a == 1)))" =
      .ok "(a eq 1 or b.x pr) and not(not (c pr or d pr or a eq 1))" := by decide +kernel
  have hcel₂ : celOfFilter .identity
      "(a eq 1 or b.x pr) and not(not (c pr or d pr or a eq 1))" =
      .ok "(a == 1 || has(b.x)) && !!(has(c) || has(d) || a == 1)" := by decide +kernel
  have hfilter₂ : filterTextOfCel .identity
      "(a == 1 || has(b.x)) && !!(has(c) || has(d) || a == 1)" =
      .ok "(a eq 1 or b.x pr) and not(not (c pr or d pr or a eq 1))" := by decide +kernel
  exact ⟨hparse, hcel₁, hfilter₁, hcel₂, _, hfilter₂,
    filterTextOfCel_settles hparse hpaths hcel₁ hfilter₁ hcel₂ hfilter₂⟩

/-- However a CEL condition is spelled, its text does not change any more once
it went through a filter. -/
theorem celOfFilter_settles {cel₀ cel₁ cel₂ filter₁ filter₂ : String}
    (hfilter₁ : filterTextOfCel .identity cel₀ = .ok filter₁)
    (hcel₁ : celOfFilter .identity filter₁ = .ok cel₁)
    (hfilter₂ : filterTextOfCel .identity cel₁ = .ok filter₂)
    (hcel₂ : celOfFilter .identity filter₂ = .ok cel₂) : cel₂ = cel₁ := by
  obtain ⟨r₁, hr₁, htext₁⟩ := bind_eq_ok.mp hfilter₁
  obtain ⟨r₂, hr₂, htext₂⟩ := bind_eq_ok.mp hfilter₂
  cases htext₁
  cases htext₂
  obtain ⟨hback, hagain⟩ := leftNested_of_isImported (isImported_of_filterOfCel hr₁) hcel₁ hr₂
  rw [hback, Expression.text_leftNested] at hcel₂
  exact Except.ok.inj (hcel₂.symm.trans hagain)

end Condition

end PolicyDialects
