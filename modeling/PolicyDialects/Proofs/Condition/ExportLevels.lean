import PolicyDialects.Proofs.Condition.Usable

/-!
# The depth of exported conditions

Reading measures the depth of a filter by a walk, and export counts levels on its
way down. Export counts neither the parentheses of a negated operand nor a
relation in one, so it is at no node further down than the node is deep.

* `Expression.branches` — the paths from the root to a leaf.
* `Expression.celLevels` — the levels that export counts.
* `Expression.HasCel` — every comparison has a CEL text, and there are no value
  filters.

Results:

* `Expression.max?_length_branches`: the depth is the length of the longest path.
* `Expression.toCelAt_ne_tooDeep`: export fails for depth only if its levels exceed
  the bound.
* `Expression.toCel_eq_tooDeep_iff`: where nothing else is in its way, it does.
* `Expression.depth_limits`: no filter within the bound of the reader is refused for
  its depth.
-/

namespace PolicyDialects.Filter

/-- No other error is that of an expression that is too deep. -/
theorem unsupportedShape_ne_tooDeep {detail : String} (h : detail.toList.head? ≠ some 'e') :
    PolicyError.unsupportedShape detail ≠ Expression.tooDeep := by
  intro heq
  apply h
  rw [PolicyError.unsupportedShape.inj heq]
  rfl

theorem Comparison.toCel_ne_tooDeep (names : NameMap) (c : Comparison) :
    c.toCel names ≠ .error Expression.tooDeep := by
  have hresolve : names.resolveProvider c.path ≠ .error Expression.tooDeep := by
    unfold NameMap.resolveProvider NameMap.resolve
    split
    · exact ok_ne_error
    · split
      · exact error_ne_error (by rintro ⟨⟩)
      · exact ok_ne_error
  unfold Comparison.toCel
  refine bind_ne_error hresolve fun path => ?_
  split
  · exact ok_ne_error
  · exact ok_ne_error
  · exact ok_ne_error
  · refine error_ne_error (unsupportedShape_ne_tooDeep ?_)
    simp

namespace Expression

/-! ## Branches -/

/-- The paths from the root to a leaf, each as the list of its nodes. -/
def branches : Expression → List (List Expression)
  | .compare c => [[.compare c]]
  | .logical op left right => (left.branches ++ right.branches).map (.logical op left right :: ·)
  | .not inner => inner.branches.map (.not inner :: ·)
  | .group inner => inner.branches.map (.group inner :: ·)
  | .valuePath path filter => filter.branches.map (.valuePath path filter :: ·)

theorem length_le_depth {e : Expression} {b : List Expression} (h : b ∈ e.branches) :
    b.length ≤ e.depth := by
  induction e generalizing b with
  | compare c => rw [List.mem_singleton.mp h]; exact Nat.le_refl _
  | logical op left right ihl ihr =>
    obtain ⟨b, hb, rfl⟩ := List.mem_map.mp h
    rcases List.mem_append.mp hb with hb | hb
    · exact Nat.succ_le_succ (Nat.le_trans (ihl hb) (Nat.le_max_left _ _))
    · exact Nat.succ_le_succ (Nat.le_trans (ihr hb) (Nat.le_max_right _ _))
  | not _ ih | group _ ih | valuePath _ _ ih =>
    obtain ⟨b, hb, rfl⟩ := List.mem_map.mp h
    exact Nat.succ_le_succ (ih hb)

theorem exists_branch (e : Expression) : ∃ b ∈ e.branches, b.length = e.depth := by
  induction e with
  | compare c => exact ⟨_, List.mem_singleton.mpr rfl, rfl⟩
  | logical op left right ihl ihr =>
    obtain ⟨b, hb, hlength⟩ : ∃ b ∈ left.branches ++ right.branches,
        b.length = max left.depth right.depth := by
      rcases Nat.le_total left.depth right.depth with hle | hle
      · rw [Nat.max_eq_right hle]
        obtain ⟨b, hb, hlength⟩ := ihr
        exact ⟨b, List.mem_append_right _ hb, hlength⟩
      · rw [Nat.max_eq_left hle]
        obtain ⟨b, hb, hlength⟩ := ihl
        exact ⟨b, List.mem_append_left _ hb, hlength⟩
    exact ⟨_, List.mem_map_of_mem hb, congrArg (· + 1) hlength⟩
  | not _ ih | group _ ih | valuePath _ _ ih =>
    obtain ⟨b, hb, hlength⟩ := ih
    exact ⟨_, List.mem_map_of_mem hb, congrArg (· + 1) hlength⟩

/-- The depth is the number of nodes on the longest branch. -/
theorem max?_length_branches (e : Expression) :
    (e.branches.map List.length).max? = some e.depth := by
  obtain ⟨b, hb, hlength⟩ := e.exists_branch
  refine List.max?_eq_some_iff.mpr ⟨hlength ▸ List.mem_map_of_mem hb, fun n hn => ?_⟩
  obtain ⟨b', hb', rfl⟩ := List.mem_map.mp hn
  exact length_le_depth hb'

/-! ## Levels of export -/

/-- The levels between a negation and its operand. A comparison that CEL writes as a
relation is part of the negation. -/
def negationStep : Expression → Nat
  | .compare c => if c.operator.isCall then 1 else 0
  | _ => 1

/-- The levels that export counts. Parentheses of the operand of `not` are part of
the negation as well. -/
def celLevels : Expression → Nat
  | .compare _ => 1
  | .logical _ left right => max left.celLevels right.celLevels + 1
  | .not (.group inner) => inner.celLevels + inner.negationStep
  | .not inner => inner.celLevels + inner.negationStep
  | .group inner => inner.celLevels + 1
  | .valuePath _ _ => 1

theorem celLevels_not (inner : Expression) :
    (Expression.not inner).celLevels =
      inner.unparenthesized.celLevels + inner.unparenthesized.negationStep := by
  cases inner <;> rfl

theorem negationStep_le (e : Expression) : e.negationStep ≤ 1 := by
  unfold negationStep
  repeat' split
  all_goals decide

theorem celLevels_pos (e : Expression) : 0 < e.celLevels := by
  induction e using operandInduction with
  | not inner ih =>
    rw [celLevels_not]
    exact Nat.add_pos_left ih _
  | _ => exact Nat.succ_pos _

/-- Export is at no node further down than the node is deep. -/
theorem celLevels_le_depth (e : Expression) : e.celLevels ≤ e.depth := by
  induction e using operandInduction with
  | compare c => exact Nat.le_refl _
  | logical op left right ihl ihr =>
    rw [celLevels, depth]
    omega
  | not inner ih =>
    have hdepth := inner.depth_unparenthesized_le
    have hstep := inner.unparenthesized.negationStep_le
    rw [celLevels_not, depth]
    omega
  | group inner ih => exact Nat.succ_le_succ ih
  | valuePath path filter => exact Nat.succ_le_succ (Nat.zero_le _)

section

variable {names : NameMap} {u : Bool} {d : Nat} {e : Expression}

theorem toCelAt_deep (hd : maxDepth < d) : toCelAt names u d e = .error tooDeep := by
  rw [toCelAt.eq_def, if_pos hd]

theorem not_deep_of_celLevels (h : d + e.celLevels ≤ maxDepth + 1) : ¬maxDepth < d := by
  have hpos := e.celLevels_pos
  omega

/-- Export writes the operands one level further down and joins their texts. -/
theorem exists_toCelAt_logical (names : NameMap) (u : Bool) (hd : ¬maxDepth < d)
    (op : LogicalOperator) (left right : Expression) :
    ∃ (v : Bool) (join : String → String → String),
      toCelAt names u d (.logical op left right) =
        toCelAt names v (d + 1) left >>= fun a =>
          toCelAt names v (d + 1) right >>= fun b => .ok (join a b) := by
  cases op with
  | and => exact ⟨true, fun a b => a ++ " && " ++ b, by rw [toCelAt, if_neg hd]; rfl⟩
  | or =>
    refine ⟨false, fun a b => if u then "(" ++ (a ++ " || " ++ b) ++ ")" else a ++ " || " ++ b, ?_⟩
    rw [toCelAt, if_neg hd]
    rfl

theorem exists_toCelAt_not (names : NameMap) (u : Bool) (hd : ¬maxDepth < d) (inner : Expression) :
    ∃ finish : String → String,
      toCelAt names u d (.not inner) =
        (toCelAt names false (d + inner.unparenthesized.negationStep)
          inner.unparenthesized).map finish := by
  rw [toCelAt_not names u hd]
  cases inner.unparenthesized with
  | compare c =>
    rw [toCelAt.negated, negationStep]
    by_cases hcall : c.operator.isCall = true
    · rw [if_pos hcall, if_pos hcall]
      exact ⟨_, rfl⟩
    · rw [if_neg hcall, if_neg hcall, Nat.add_zero, toCelAt, if_neg hd]
      exact ⟨_, rfl⟩
  | _ => exact ⟨_, rfl⟩

theorem exists_toCelAt_group (names : NameMap) (u : Bool) (hd : ¬maxDepth < d)
    (inner : Expression) :
    ∃ finish : String → String,
      toCelAt names u d (.group inner) = (toCelAt names false (d + 1) inner).map finish :=
  ⟨fun s => "(" ++ s ++ ")", by rw [toCelAt, if_neg hd]; rfl⟩

/-- Export fails for depth only if its levels exceed the bound. -/
theorem toCelAt_ne_tooDeep (h : d + e.celLevels ≤ maxDepth + 1) :
    toCelAt names u d e ≠ .error tooDeep := by
  induction e using operandInduction generalizing u d with
  | compare c =>
    have hd := not_deep_of_celLevels h
    rw [toCelAt, if_neg hd]
    exact c.toCel_ne_tooDeep names
  | logical op left right ihl ihr =>
    have hd := not_deep_of_celLevels h
    rw [celLevels] at h
    have hl : d + 1 + left.celLevels ≤ maxDepth + 1 := by omega
    have hr : d + 1 + right.celLevels ≤ maxDepth + 1 := by omega
    obtain ⟨v, join, heq⟩ := exists_toCelAt_logical names u hd op left right
    rw [heq]
    refine bind_ne_error (ihl hl) fun a => ?_
    exact bind_ne_error (ihr hr) fun b => ok_ne_error
  | not inner ih =>
    have hd := not_deep_of_celLevels h
    obtain ⟨finish, heq⟩ := exists_toCelAt_not names u hd inner
    rw [celLevels_not] at h
    have hi : d + inner.unparenthesized.negationStep + inner.unparenthesized.celLevels ≤
        maxDepth + 1 := by omega
    rw [heq, Ne, map_eq_error]
    exact ih hi
  | group inner ih =>
    have hd := not_deep_of_celLevels h
    obtain ⟨finish, heq⟩ := exists_toCelAt_group names u hd inner
    rw [celLevels] at h
    have hi : d + 1 + inner.celLevels ≤ maxDepth + 1 := by omega
    rw [heq, Ne, map_eq_error]
    exact ih hi
  | valuePath path filter =>
    rw [toCelAt, if_neg (not_deep_of_celLevels h)]
    exact error_ne_error (unsupportedShape_ne_tooDeep (by simp))

/-- Every comparison has a CEL text, and there are no value filters, which have
none. -/
abbrev HasCel (names : NameMap) (e : Expression) : Prop :=
  e.Each (fun _ => False) fun c => ∃ cel, c.toCel names = .ok cel

/-- Where every comparison has a CEL text, export within the bound succeeds. -/
theorem exists_toCelAt (he : e.HasCel names) (h : d + e.celLevels ≤ maxDepth + 1) :
    ∃ cel, toCelAt names u d e = .ok cel := by
  induction e using operandInduction generalizing u d with
  | compare c =>
    have hd := not_deep_of_celLevels h
    rw [toCelAt, if_neg hd]
    exact he
  | logical op left right ihl ihr =>
    have hd := not_deep_of_celLevels h
    rw [celLevels] at h
    have hl : d + 1 + left.celLevels ≤ maxDepth + 1 := by omega
    have hr : d + 1 + right.celLevels ≤ maxDepth + 1 := by omega
    obtain ⟨v, join, heq⟩ := exists_toCelAt_logical names u hd op left right
    obtain ⟨a, ha⟩ := ihl he.1 (u := v) hl
    obtain ⟨b, hb⟩ := ihr he.2 (u := v) hr
    rw [heq, ha, hb]
    exact ⟨join a b, rfl⟩
  | not inner ih =>
    have hd := not_deep_of_celLevels h
    obtain ⟨finish, heq⟩ := exists_toCelAt_not names u hd inner
    rw [celLevels_not] at h
    have hi : d + inner.unparenthesized.negationStep + inner.unparenthesized.celLevels ≤
        maxDepth + 1 := by omega
    obtain ⟨cel, hcel⟩ := ih ((each_unparenthesized inner).mpr he) (u := false) hi
    rw [heq, hcel]
    exact ⟨finish cel, rfl⟩
  | group inner ih =>
    have hd := not_deep_of_celLevels h
    obtain ⟨finish, heq⟩ := exists_toCelAt_group names u hd inner
    rw [celLevels] at h
    have hi : d + 1 + inner.celLevels ≤ maxDepth + 1 := by omega
    obtain ⟨cel, hcel⟩ := ih he (u := false) hi
    rw [heq, hcel]
    exact ⟨finish cel, rfl⟩
  | valuePath path filter => exact he.1.elim

theorem toCelAt_tooDeep_of (h : ¬maxDepth < d → toCelAt names u d e = .error tooDeep) :
    toCelAt names u d e = .error tooDeep := by
  by_cases hd : maxDepth < d
  · exact toCelAt_deep hd
  · exact h hd

/-- Where every comparison has a CEL text, export beyond the bound fails for depth:
nothing on the way down fails before. -/
theorem toCelAt_tooDeep (he : e.HasCel names) (h : maxDepth + 1 < d + e.celLevels) :
    toCelAt names u d e = .error tooDeep := by
  induction e using operandInduction generalizing u d with
  | compare c => exact toCelAt_deep (Nat.lt_of_succ_lt_succ h)
  | logical op left right ihl ihr =>
    refine toCelAt_tooDeep_of fun hd => ?_
    obtain ⟨v, join, heq⟩ := exists_toCelAt_logical names u hd op left right
    rw [celLevels] at h
    rw [heq]
    by_cases hl : d + 1 + left.celLevels ≤ maxDepth + 1
    · obtain ⟨a, ha⟩ := exists_toCelAt he.1 (u := v) hl
      rw [ha, ihr he.2 (by omega)]
      rfl
    · rw [ihl he.1 (by omega)]
      rfl
  | not inner ih =>
    refine toCelAt_tooDeep_of fun hd => ?_
    obtain ⟨finish, heq⟩ := exists_toCelAt_not names u hd inner
    rw [celLevels_not] at h
    rw [heq, map_eq_error]
    exact ih ((each_unparenthesized inner).mpr he) (by omega)
  | group inner ih =>
    refine toCelAt_tooDeep_of fun hd => ?_
    obtain ⟨finish, heq⟩ := exists_toCelAt_group names u hd inner
    rw [celLevels] at h
    rw [heq, map_eq_error]
    exact ih he (by omega)
  | valuePath path filter => exact he.1.elim

/-- Where every comparison has a CEL text, the levels alone decide. -/
theorem toCel_eq_tooDeep_iff (he : e.HasCel names) :
    e.toCel names = .error tooDeep ↔ maxDepth < e.celLevels := by
  constructor
  · intro h
    by_contra hlevels
    exact toCelAt_ne_tooDeep (by omega) h
  · intro h
    exact toCelAt_tooDeep he (by omega)

end

/-- The walk that measures an expression finds the number of nodes on its longest
branch. Export within the bound on that number does not fail for depth, and so never
fails for the depth of a filter that was read. Its own levels are no more, and where
every comparison has a CEL text, it fails for depth exactly if they exceed the
bound. -/
theorem depth_limits (e : Expression) :
    (e.branches.map List.length).max? = some e.deepestLevel ∧
      (∀ names, e.deepestLevel ≤ maxDepth → e.toCel names ≠ .error tooDeep) ∧
      (∀ names text, Expression.parse text = .ok e → e.toCel names ≠ .error tooDeep) ∧
      e.celLevels ≤ e.deepestLevel ∧
      ∀ names, e.HasCel names → (e.toCel names = .error tooDeep ↔ maxDepth < e.celLevels) := by
  have hlevels := e.celLevels_le_depth
  have hbound : ∀ names, e.depth ≤ maxDepth → e.toCel names ≠ .error tooDeep := by
    intro names hdepth
    exact toCelAt_ne_tooDeep (by omega)
  rw [deepestLevel_eq_depth]
  refine ⟨e.max?_length_branches, hbound, fun names text hparse => ?_, hlevels,
    fun names => toCel_eq_tooDeep_iff⟩
  obtain ⟨ts, -, -, -, hdepth⟩ := spells_of_parse hparse
  exact hbound names hdepth

/-- `not (level gt 5) or not (b pr)`. -/
def mixedNegations : Expression :=
  .or (.not (.group (.compare (.with "level" .gt (.integer 5)))))
    (.not (.group (.compare (.present "b"))))

/-- The reader returns it, a strict map without names refuses it for another reason,
and its three levels are within the bound. -/
theorem depth_limits_mixedNegations :
    Expression.parse "not (level gt 5) or not (b pr)" = .ok mixedNegations ∧
      mixedNegations.toCel .identity ≠ .error tooDeep ∧
      mixedNegations.deepestLevel ≤ maxDepth ∧
      mixedNegations.toCel { strict := true } ≠ .error tooDeep ∧
      mixedNegations.HasCel .identity ∧
      (mixedNegations.toCel .identity = .error tooDeep ↔ maxDepth < 3) := by
  have hparse : Expression.parse "not (level gt 5) or not (b pr)" = .ok mixedNegations := by
    decide +kernel
  have hdepth : mixedNegations.deepestLevel ≤ maxDepth := by decide +kernel
  have hcel : mixedNegations.HasCel .identity := ⟨⟨_, rfl⟩, _, rfl⟩
  obtain ⟨-, hwithin, hread, -, hexact⟩ := depth_limits mixedNegations
  exact ⟨hparse, hread _ _ hparse, hdepth, hwithin _ hdepth, hcel, hexact _ hcel⟩

end Expression

end PolicyDialects.Filter
