import PolicyDialects.Cel.Meaning
import PolicyDialects.Proofs.Cel.Names
import PolicyDialects.Proofs.Filter.Paths
import PolicyDialects.Proofs.Filter.Tokens

/-!
# What conversion to filters does

Results, for the names as they are:

* `exists_imports_of_toFilterAt`: names apart, conversion does the same under
  every map.
* `toFilterAt_eq_ok_iff`: conversion succeeds exactly on the trees that the
  relation `Imports` has a filter for, up to a depth.
* `Imports.truth?_eq`: the filter is true when the condition is.
* `Imports.orsApart`: no `or` is a direct operand of an `and`.
* `Imports.isLexical`: the filter can be printed and cut into tokens again.
-/

namespace PolicyDialects.Cel

open Text
open PolicyDialects.Filter (CompareOperator Comparison Expression Value IsUnbroken)

/-- A double is finite. -/
def Constant.IsFinite : Constant → Prop
  | .float x => x.IsFinite
  | _ => True

namespace Tree

theorem path_identity (e : Tree) : e.path .identity = e.selectPath := by
  unfold path NameMap.resolveIdql
  cases e.selectPath with
  | error err => rfl
  | ok p => exact NameMap.resolve_identity _ p

theorem path_eq_ok {names : NameMap} {e : Tree} {path : String} (h : e.path names = .ok path) :
    ∃ p, e.selectPath = .ok p ∧ names.toIdql p = path := by
  obtain ⟨p, hp, h⟩ := bind_eq_ok.mp h
  exact ⟨p, hp, NameMap.rename_of_resolve h⟩

/-! ## The relation between conditions and filters -/

/-- The filter of a condition, by the shape of the condition; the flag says
whether it is an operand of `&&`. -/
inductive Imports : Bool → Tree → Expression → Prop where
  | compare {u : Bool} {e : Tree} {c : Comparison} (h : e.comparison? = some c) :
      Imports u e (.compare c)
  | notCompare {u : Bool} {op : Relation} {left right : Tree} {c : Comparison}
      (h : (Tree.relation op left right).comparison? = some c) :
      Imports u (.relation op (.unary .not left) right) (.not (.compare c))
  | and {u : Bool} {l r : Tree} {e f : Expression} (hl : Imports true l e)
      (hr : Imports true r f) : Imports u (.and l r) (.logical .and e f)
  | or {l r : Tree} {e f : Expression} (hl : Imports false l e) (hr : Imports false r f) :
      Imports false (.or l r) (.logical .or e f)
  | group {l r : Tree} {e f : Expression} (hl : Imports false l e) (hr : Imports false r f) :
      Imports true (.or l r) (.group (.logical .or e f))
  | not {u : Bool} {t : Tree} {e : Expression} (h : Imports false t e) :
      Imports u (.unary .not t) (.not e)
  | doubleNot {u : Bool} {t : Tree} {e : Expression} (h : Imports false t e) :
      Imports u (.unary .doubleNot t) (.not (.not e))

section

variable {names : NameMap} {u : Bool} {e : Expression}

theorem relationFilter_eq_ok {left right : Tree} {op : Relation}
    (h : relationFilter names left op right = .ok e) :
    ∃ e₀, Imports u (.relation op left right) e₀ ∧ e = e₀.mapPaths names.toIdql := by
  unfold relationFilter at h
  obtain ⟨value, hvalue, h⟩ := bind_eq_ok.mp h
  split at h
  · obtain ⟨path, hpath, h⟩ := bind_eq_ok.mp h
    obtain ⟨p, hp, rfl⟩ := path_eq_ok hpath
    cases h
    exact ⟨.not (.compare (.with p (relationOperator op) value)),
      .notCompare (by simp [comparison?, hp, hvalue, Except.toOption]), rfl⟩
  · obtain ⟨path, hpath, h⟩ := bind_eq_ok.mp h
    obtain ⟨p, hp, rfl⟩ := path_eq_ok hpath
    cases h
    exact ⟨.compare (.with p (relationOperator op) value),
      .compare (by simp [comparison?, hp, hvalue, Except.toOption]), rfl⟩

theorem callFilter_eq_ok {name : String} {args : List Tree}
    (h : callFilter names none name args = .ok e) :
    ∃ e₀, Imports u (.call name args) e₀ ∧ e = e₀.mapPaths names.toIdql := by
  unfold callFilter at h
  split_ifs at h with hhas
  · match args with
    | [arg] =>
      obtain ⟨path, hpath, h⟩ := bind_eq_ok.mp h
      obtain ⟨p, hp, rfl⟩ := path_eq_ok hpath
      cases h
      exact ⟨.compare (.present p), .compare (by simp [comparison?, hp, hhas, Except.toOption]),
        rfl⟩
    | [] => cases h
    | _ :: _ :: _ => cases h
  · cases hop : methodOperator? name with
    | none => rw [hop] at h; cases h
    | some op => rw [hop] at h; cases h

theorem methodFilter_eq_ok {receiver : Tree} {name : String} {args : List Tree}
    (h : callFilter names (some receiver) name args = .ok e) :
    ∃ e₀, Imports u (.methodCall receiver name args) e₀ ∧ e = e₀.mapPaths names.toIdql := by
  unfold callFilter at h
  split_ifs at h with hhas
  cases hop : methodOperator? name with
  | none => rw [hop] at h; cases h
  | some op =>
    rw [hop] at h
    match args with
    | [arg] =>
      obtain ⟨path, hpath, h⟩ := bind_eq_ok.mp h
      obtain ⟨value, hvalue, h⟩ := bind_eq_ok.mp h
      obtain ⟨p, hp, rfl⟩ := path_eq_ok hpath
      cases h
      exact ⟨.compare (.with p op value),
        .compare (by simp [comparison?, hop, hp, hvalue, Except.toOption]), rfl⟩
    | [] => cases h
    | _ :: _ :: _ => cases h

/-- What conversion returns is related to the condition, but for the names of
attributes. -/
theorem exists_imports_of_toFilterAt {d : Nat} {t : Tree} (h : toFilterAt names u d t = .ok e) :
    (∃ e₀, Imports u t e₀ ∧ e = e₀.mapPaths names.toIdql) ∧
      d + t.levels ≤ Expression.maxDepth + 1 := by
  fun_induction toFilterAt names u d t generalizing e with
  | case1 => cases h
  | case2 u d hd l r ihl ihr =>
    obtain ⟨a, ha, h⟩ := bind_eq_ok.mp h
    obtain ⟨b, hb, h⟩ := bind_eq_ok.mp h
    cases h
    obtain ⟨⟨a₀, hl, rfl⟩, hdl⟩ := ihl ha
    obtain ⟨⟨b₀, hr, rfl⟩, hdr⟩ := ihr hb
    exact ⟨⟨_, .and hl hr, rfl⟩, by simp only [levels]; omega⟩
  | case3 u d hd l r ihl ihr =>
    obtain ⟨a, ha, h⟩ := bind_eq_ok.mp h
    obtain ⟨b, hb, h⟩ := bind_eq_ok.mp h
    cases h
    obtain ⟨⟨a₀, hl, rfl⟩, hdl⟩ := ihl ha
    obtain ⟨⟨b₀, hr, rfl⟩, hdr⟩ := ihr hb
    have hdepth : d + (Tree.or l r).levels ≤ Expression.maxDepth + 1 := by
      simp only [levels]; omega
    cases u with
    | false => exact ⟨⟨_, .or hl hr, rfl⟩, hdepth⟩
    | true => exact ⟨⟨_, .group hl hr, rfl⟩, hdepth⟩
  | case4 u d hd inner ih =>
    obtain ⟨a, ha, h⟩ := bind_eq_ok.mp h
    cases h
    obtain ⟨⟨a₀, hi, rfl⟩, hdi⟩ := ih ha
    exact ⟨⟨_, .not hi, rfl⟩, by simp only [levels]; omega⟩
  | case5 u d hd inner ih =>
    obtain ⟨a, ha, h⟩ := bind_eq_ok.mp h
    cases h
    obtain ⟨⟨a₀, hi, rfl⟩, hdi⟩ := ih ha
    exact ⟨⟨_, .doubleNot hi, rfl⟩, by simp only [levels]; omega⟩
  | case6 u d hd op left right =>
    exact ⟨relationFilter_eq_ok h, by simp only [levels]; omega⟩
  | case7 u d hd name args =>
    exact ⟨callFilter_eq_ok h, by simp only [levels]; omega⟩
  | case8 u d hd receiver name args =>
    exact ⟨methodFilter_eq_ok h, by simp only [levels]; omega⟩
  | case9 => cases h

end

/-- What conversion returns is related to the condition. -/
theorem imports_of_toFilterAt {u : Bool} {d : Nat} {t : Tree} {e : Expression}
    (h : toFilterAt .identity u d t = .ok e) :
    Imports u t e ∧ d + t.levels ≤ Expression.maxDepth + 1 := by
  obtain ⟨⟨e₀, himports, rfl⟩, hd⟩ := exists_imports_of_toFilterAt h
  have hself : e₀.mapPaths NameMap.identity.toIdql = e₀ :=
    Expression.mapPaths_eq_self (Expression.each_of_forall (NameMap.rename_identity _)
      (fun c => NameMap.rename_identity _ c.path) e₀)
  rw [hself]
  exact ⟨himports, hd⟩

/-- The shapes of conditions that make a comparison, and what they compare. -/
theorem comparison?_eq_some {t : Tree} {c : Comparison} (h : t.comparison? = some c) :
    (∃ op left right path value, t = .relation op left right ∧ left.selectPath = .ok path ∧
      right.constantValue = .ok value ∧ c = .with path (relationOperator op) value) ∨
    (∃ arg path, t = .call "has" [arg] ∧ arg.selectPath = .ok path ∧ c = .present path) ∨
    (∃ receiver name arg op path value, t = .methodCall receiver name [arg] ∧
      methodOperator? name = some op ∧ receiver.selectPath = .ok path ∧
      arg.constantValue = .ok value ∧ c = .with path op value) := by
  have htoOption : ∀ {α : Type} {r : Except PolicyError α} {a : α},
      r.toOption = some a → r = .ok a := by
    intro α r a hr
    cases r with
    | error e => cases hr
    | ok x => exact congrArg _ (Option.some.inj hr)
  unfold comparison? at h
  split at h
  · rename_i op left right
    simp only [Option.bind_eq_bind, Option.bind_eq_some_iff] at h
    obtain ⟨path, hpath, value, hvalue, h⟩ := h
    exact .inl ⟨op, left, right, path, value, rfl, htoOption hpath, htoOption hvalue,
      (Option.some.inj h).symm⟩
  · rename_i name arg
    split_ifs at h with hhas
    simp only [Option.bind_eq_bind, Option.bind_eq_some_iff] at h
    obtain ⟨path, hpath, h⟩ := h
    subst hhas
    exact .inr (.inl ⟨arg, path, rfl, htoOption hpath, (Option.some.inj h).symm⟩)
  · rename_i receiver name arg
    simp only [Option.bind_eq_bind, Option.bind_eq_some_iff] at h
    obtain ⟨op, hop, path, hpath, value, hvalue, h⟩ := h
    exact .inr (.inr ⟨receiver, name, arg, op, path, value, rfl, hop, htoOption hpath,
      htoOption hvalue, (Option.some.inj h).symm⟩)
  · cases h

theorem levels_of_comparison? {t : Tree} {c : Comparison} (h : t.comparison? = some c) :
    t.levels = 1 := by
  rcases comparison?_eq_some h with ⟨_, _, _, _, _, rfl, -⟩ | ⟨_, _, rfl, -⟩ |
    ⟨_, _, _, _, _, _, rfl, -⟩ <;> rfl

theorem selectPath_ne_not {e : Tree} {path : String} (h : e.selectPath = .ok path) (inner : Tree) :
    e ≠ .unary .not inner := by
  rintro rfl
  cases h

theorem relationFilter_path {left right : Tree} {path : String} {value : Value}
    (hpath : left.selectPath = .ok path) (hvalue : right.constantValue = .ok value)
    (op : Relation) :
    relationFilter .identity left op right =
      .ok (.compare (.with path (relationOperator op) value)) := by
  unfold relationFilter
  refine bind_eq_ok.mpr ⟨value, hvalue, ?_⟩
  split
  · exact absurd rfl (selectPath_ne_not hpath _)
  · rw [path_identity, hpath]
    rfl

theorem relationFilter_not {left right : Tree} {path : String} {value : Value}
    (hpath : left.selectPath = .ok path) (hvalue : right.constantValue = .ok value)
    (op : Relation) :
    relationFilter .identity (.unary .not left) op right =
      .ok (.not (.compare (.with path (relationOperator op) value))) := by
  unfold relationFilter
  rw [hvalue]
  show (do return Expression.not (.compare (.with (← left.path .identity) _ value))) = _
  rw [path_identity, hpath]
  rfl

theorem methodOperator?_eq_some {name : String} {op : CompareOperator}
    (h : methodOperator? name = some op) : name ≠ "has" ∧ op ≠ .pr := by
  unfold methodOperator? at h
  split_ifs at h with h1 h2 h3
  · cases h; subst h1; decide
  · cases h; subst h2; decide
  · cases h; subst h3; decide

/-- Conversion succeeds exactly where the relation gives a filter, up to a
depth. -/
theorem toFilterAt_eq_ok_iff {u : Bool} {d : Nat} {t : Tree} {e : Expression} :
    toFilterAt .identity u d t = .ok e ↔
      Imports u t e ∧ d + t.levels ≤ Expression.maxDepth + 1 := by
  refine ⟨imports_of_toFilterAt, ?_⟩
  rintro ⟨h, hd⟩
  have hbound : ∀ {d n : Nat}, d + (n + 1) ≤ Expression.maxDepth + 1 →
      ¬Expression.maxDepth < d := by
    intro d n h; omega
  induction h generalizing d with
  | compare h =>
    rw [levels_of_comparison? h] at hd
    rcases comparison?_eq_some h with ⟨op, left, right, path, value, rfl, hpath, hvalue, rfl⟩ |
      ⟨arg, path, rfl, hpath, rfl⟩ |
      ⟨receiver, name, arg, op, path, value, rfl, hop, hpath, hvalue, rfl⟩
    · rw [toFilterAt, if_neg (hbound hd)]
      exact relationFilter_path hpath hvalue op
    · rw [toFilterAt, if_neg (hbound hd)]
      show (do return Expression.compare (.present (← arg.path .identity))) = _
      rw [path_identity, hpath]
      rfl
    · rw [toFilterAt, if_neg (hbound hd)]
      unfold callFilter
      rw [if_neg (methodOperator?_eq_some hop).1, hop]
      show (do
        let path ← receiver.path .identity
        let value ← arg.constantValue
        return Expression.compare (.with path op value)) = _
      rw [path_identity, hpath, hvalue]
      rfl
  | notCompare h =>
    rcases comparison?_eq_some h with ⟨op, left, right, path, value, heq, hpath, hvalue, rfl⟩ |
      ⟨_, _, heq, -⟩ | ⟨_, _, _, _, _, _, heq, -⟩
    · cases heq
      simp only [levels] at hd
      rw [toFilterAt, if_neg (hbound hd)]
      exact relationFilter_not hpath hvalue _
    · cases heq
    · cases heq
  | @and u l r e f _ _ ihl ihr =>
    simp only [levels] at hd
    rw [toFilterAt, if_neg (hbound hd)]
    simp only [ihl (d := d + 1) (by omega), ihr (d := d + 1) (by omega)]
    rfl
  | @or l r e f _ _ ihl ihr =>
    simp only [levels] at hd
    rw [toFilterAt, if_neg (hbound hd)]
    simp only [ihl (d := d + 1) (by omega), ihr (d := d + 1) (by omega)]
    rfl
  | @group l r e f _ _ ihl ihr =>
    simp only [levels] at hd
    rw [toFilterAt, if_neg (hbound hd)]
    simp only [ihl (d := d + 1) (by omega), ihr (d := d + 1) (by omega)]
    rfl
  | not _ ih =>
    simp only [levels] at hd
    rw [toFilterAt, if_neg (hbound hd)]
    simp only [ih (d := d + 1) (by omega)]
    rfl
  | doubleNot _ ih =>
    simp only [levels] at hd
    rw [toFilterAt, if_neg (hbound hd)]
    simp only [ih (d := d + 1) (by omega)]
    rfl

/-! ## Meaning -/

/-- The filter is true when the condition is. -/
theorem Imports.truth?_eq {u : Bool} {t : Tree} {e : Expression} (h : Imports u t e)
    (truth : List String → Comparison → Bool) : t.truth? (truth []) = some (e.holds truth) := by
  induction h with
  | @compare u t c h =>
    have htruth : t.truth? (truth []) = t.comparison?.map (truth []) := by
      rcases comparison?_eq_some h with ⟨op, left, right, path, value, rfl, hpath, -⟩ |
        ⟨_, _, rfl, -⟩ | ⟨_, _, _, _, _, _, rfl, -⟩
      · cases left <;> first | rfl | cases hpath
      · rfl
      · rfl
    rw [htruth, h]
    rfl
  | notCompare h =>
    rw [truth?, h]
    rfl
  | and _ _ ihl ihr => rw [truth?, ihl, ihr]; rfl
  | or _ _ ihl ihr => rw [truth?, ihl, ihr]; rfl
  | group _ _ ihl ihr => rw [truth?, ihl, ihr]; rfl
  | not _ ih => rw [truth?, ih]; rfl
  | doubleNot _ ih => rw [truth?, ih]; simp only [Expression.holds, Bool.not_not]

/-- An operand of `&&` becomes no `or` without parentheses. -/
theorem Imports.isOr_eq_false {t : Tree} {e : Expression} (h : Imports true t e) :
    e.isOr = false := by
  cases h <;> rfl

theorem Imports.orsApart {u : Bool} {t : Tree} {e : Expression} (h : Imports u t e) :
    e.OrsApart := by
  induction h with
  | compare => trivial
  | notCompare => trivial
  | and hl hr ihl ihr => exact ⟨fun _ => ⟨hl.isOr_eq_false, hr.isOr_eq_false⟩, ihl, ihr⟩
  | or _ _ ihl ihr => exact ⟨by simp, ihl, ihr⟩
  | group _ _ ihl ihr => exact ⟨by simp, ihl, ihr⟩
  | not _ ih => exact ih
  | doubleNot _ ih => exact ih

/-! ## Spelling -/

theorem isDelimiter_of_isIdentPart {c : Char} (h : isIdentPart c = true) :
    Filter.isDelimiter c = false := by
  have hascii : c.toNat < 128 := by
    simp only [isIdentPart, isIdentStart, Bool.or_eq_true, beq_iff_eq] at h
    rcases h with (h | rfl) | h
    · exact toNat_lt_of_isLetter h
    · decide
    · exact toNat_lt_of_isDigit h
  revert h
  exact of_ascii hascii (by decide)

theorem isUnbroken_of_isName {name : String} (h : IsName name.toList) : IsUnbroken name := by
  obtain ⟨c, rest, hname, -⟩ := h.start
  exact ⟨by simp [hname], fun c hc => isDelimiter_of_isIdentPart (h.part c hc)⟩

theorem isUnbroken_selectPath {e : Tree} (hnamed : e.Named) {path : String}
    (h : e.selectPath = .ok path) : IsUnbroken path := by
  induction hnamed generalizing path with
  | ident hname =>
    cases h
    exact isUnbroken_of_isName hname
  | @select e name _ hname ih =>
    obtain ⟨front, hfront, h⟩ := bind_eq_ok.mp h
    cases h
    obtain ⟨hne, hchars⟩ := ih hfront
    refine ⟨by simp [hne], fun c hc => ?_⟩
    simp only [String.toList_append, List.mem_append] at hc
    rcases hc with (hc | hc) | hc
    · exact hchars c hc
    · revert c; decide
    · exact (isUnbroken_of_isName hname).2 c hc
  | _ => cases h

/-- Every double among the constants of the expression is finite. -/
abbrev FloatsFinite (e : Tree) : Prop := e.Each (fun _ => True) Constant.IsFinite

theorem floatsFinite_value {c : Constant} (h : c.IsFinite) {negative : Bool} {v : Value}
    (hv : c.value negative = .ok v) : v.FloatsFinite := by
  cases c <;> cases negative <;> cases hv
  case float.false x => exact h
  case float.true x => cases x <;> trivial
  all_goals trivial

mutual

theorem floatsFinite_constantValue (e : Tree) (h : e.FloatsFinite) {v : Value}
    (hv : e.constantValue = .ok v) : v.FloatsFinite := by
  match e with
  | .constant c =>
    cases h with
    | constant hc => exact floatsFinite_value hc hv
  | .unary .minus (.constant c) =>
    cases h with
    | unary he =>
      cases he with
      | constant hc => exact floatsFinite_value hc hv
  | .list items =>
    cases h with
    | list hitems =>
      obtain ⟨values, hvalues, hv⟩ := bind_eq_ok.mp hv
      cases hv
      exact floatsFinite_constantValues items hitems hvalues

theorem floatsFinite_constantValues (es : List Tree) (h : ∀ e ∈ es, e.FloatsFinite)
    {vs : List Value} (hvs : constantValues es = .ok vs) : Value.AllFloatsFinite vs := by
  match es with
  | [] => cases hvs; trivial
  | e :: es =>
    obtain ⟨v, hv, hvs⟩ := bind_eq_ok.mp hvs
    obtain ⟨ws, hws, hvs⟩ := bind_eq_ok.mp hvs
    cases hvs
    exact ⟨floatsFinite_constantValue e (h e List.mem_cons_self) hv,
      floatsFinite_constantValues es (fun x hx => h x (List.mem_cons_of_mem _ hx)) hws⟩

end

theorem relationOperator_ne_pr (op : Relation) : relationOperator op ≠ .pr := by
  cases op <;> decide

/-- A comparison of a condition that was read has a word for its path, and a
value when its operator takes one. -/
theorem isWellFormed_of_comparison? {t : Tree} {c : Comparison} (h : t.comparison? = some c)
    (hnamed : t.Named) : c.IsWellFormed := by
  rcases comparison?_eq_some h with ⟨op, left, right, path, value, rfl, hpath, -, rfl⟩ |
    ⟨arg, path, rfl, hpath, rfl⟩ |
    ⟨receiver, name, arg, op, path, value, rfl, hop, hpath, -, rfl⟩
  · cases hnamed with
    | relation hl _ =>
      exact ⟨isUnbroken_selectPath hl hpath,
        by simp [Comparison.with, relationOperator_ne_pr op]⟩
  · cases hnamed with
    | call _ hargs =>
      exact ⟨isUnbroken_selectPath (hargs arg List.mem_cons_self) hpath,
        by simp [Comparison.present]⟩
  · cases hnamed with
    | methodCall hreceiver _ _ =>
      exact ⟨isUnbroken_selectPath hreceiver hpath,
        by simp [Comparison.with, (methodOperator?_eq_some hop).2]⟩

theorem floatsFinite_of_comparison? {t : Tree} {c : Comparison} (h : t.comparison? = some c)
    (hfinite : t.FloatsFinite) : ∀ v ∈ c.value, v.FloatsFinite := by
  intro v hv
  rcases comparison?_eq_some h with ⟨op, left, right, path, value, rfl, -, hvalue, rfl⟩ |
    ⟨arg, path, rfl, -, rfl⟩ | ⟨receiver, name, arg, op, path, value, rfl, -, -, hvalue, rfl⟩
  · obtain rfl : value = v := Option.some.inj hv
    cases hfinite with
    | relation _ hr => exact floatsFinite_constantValue right hr hvalue
  · cases hv
  · obtain rfl : value = v := Option.some.inj hv
    cases hfinite with
    | methodCall _ _ hargs =>
      exact floatsFinite_constantValue arg (hargs arg List.mem_cons_self) hvalue

section

variable {u : Bool} {t : Tree} {e : Expression}

/-- What every comparison of the condition has, every comparison of its filter
has; there are no value filters. -/
theorem Imports.each {p : String → Prop} {q : Constant → Prop} {r : Comparison → Prop}
    (hr : ∀ {t : Tree} {c : Comparison}, t.comparison? = some c → t.Each p q → r c)
    (h : Imports u t e) (ht : t.Each p q) : e.Each (fun _ => False) r := by
  induction h with
  | compare h => exact hr h ht
  | @notCompare u op left right c h =>
    cases ht with
    | relation hleft hright =>
      cases hleft with
      | unary hleft => exact hr h (.relation hleft hright)
  | and _ _ ihl ihr =>
    cases ht with
    | and hleft hright => exact ⟨ihl hleft, ihr hright⟩
  | or _ _ ihl ihr =>
    cases ht with
    | or hleft hright => exact ⟨ihl hleft, ihr hright⟩
  | group _ _ ihl ihr =>
    cases ht with
    | or hleft hright => exact ⟨ihl hleft, ihr hright⟩
  | not _ ih =>
    cases ht with
    | unary he => exact ih he
  | doubleNot _ ih =>
    cases ht with
    | unary he => exact ih he

/-- The filter of a condition that was read has words for paths, and the values
that its operators take. -/
theorem Imports.isWellFormed (h : Imports u t e) (hnamed : t.Named) : e.IsWellFormed :=
  (h.each isWellFormed_of_comparison? hnamed).imp (fun _ => False.elim) fun _ hc => hc

/-- With finite doubles, every comparison of the filter can be printed and cut
into tokens again. -/
theorem Imports.each_isLexical (h : Imports u t e) (hnamed : t.Named) (hfinite : t.FloatsFinite) :
    e.Each (fun _ => False) Comparison.IsLexical :=
  ((h.each isWellFormed_of_comparison? hnamed).and (h.each floatsFinite_of_comparison? hfinite)).imp
    (fun _ hp => hp.1) fun _ hc => ⟨hc.1.path, hc.1.value_iff, hc.2⟩

/-- The filter of a condition that was read can be printed and cut into tokens
again. -/
theorem Imports.isLexical (h : Imports u t e) (hnamed : t.Named) (hfinite : t.FloatsFinite) :
    e.IsLexical :=
  (h.each_isLexical hnamed hfinite).imp (fun _ => False.elim) fun _ hc => hc

end

end Tree

end PolicyDialects.Cel
