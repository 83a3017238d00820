import PolicyDialects.Proofs.Filter.Tokens

/-!
# What printed expressions are read as

A printed value is read as the value that it is, but for doubles that are no
finite numbers: `inf` and `NaN` are words, and words that are no numbers are
strings. `reread` makes that difference.

Results:

* `Value.IsOneWord`: a value that is written as a word, with what the readers
  ask of the word.
* `reread_eq_self`: finite doubles are read as they are.
* `canonical_reread`: how an expression is nested has nothing to do with it.
-/

namespace PolicyDialects.Filter

open Text

/-! ## Values -/

namespace Value

/-- Whether the value is a list. -/
def isList : Value → Bool
  | .list _ => true
  | _ => false

/-- A list stands after `in` only, and holds no list. -/
def Suits (op : CompareOperator) : Value → Prop
  | .list items => op = .in ∧ ∀ item ∈ items, item.isList = false
  | _ => True

theorem suits_of_isList {v : Value} (h : v.isList = false) (op : CompareOperator) :
    v.Suits op := by
  cases v <;> trivial

/-- The value that the token of an item is read as. -/
def rereadItem : Value → Value
  | .float x => .ofWord (Value.float x).text
  | v => v

/-- The value that the tokens of a value are read as. -/
def reread : Value → Value
  | .list items => .list (items.map rereadItem)
  | v => v.rereadItem

theorem rereadItem_eq_self {v : Value} (h : v.FloatsFinite) : v.rereadItem = v := by
  cases v with
  | float x => exact ofWord_float h
  | _ => rfl

theorem map_rereadItem_eq_self {items : List Value} (h : AllFloatsFinite items) :
    items.map rereadItem = items := by
  induction items with
  | nil => rfl
  | cons v items ih => rw [List.map_cons, rereadItem_eq_self h.1, ih h.2]

theorem reread_eq_self {v : Value} (h : v.FloatsFinite) : v.reread = v := by
  cases v with
  | list items => exact congrArg Value.list (map_rereadItem_eq_self h)
  | float x => exact rereadItem_eq_self (v := .float x) h
  | _ => rfl

theorem reread_of_isList {v : Value} (h : v.isList = false) : v.reread = v.rereadItem := by
  cases v <;> first | rfl | cases h

/-- What is no number is read as a string. -/
theorem rereadItem_float (x : Binary64) :
    (Value.float x).rereadItem = .float x ∧ x.IsFinite ∨
      (Value.float x).rereadItem = .string (Value.float x).text := by
  cases x with
  | nan => exact .inr (by decide)
  | infinite negative => cases negative <;> exact .inr (by decide)
  | finite negative units fits =>
    exact .inl ⟨rereadItem_eq_self (v := .float (.finite negative units fits)) trivial, trivial⟩

theorem isList_rereadItem (v : Value) : v.rereadItem.isList = v.isList := by
  cases v with
  | float x =>
    rcases rereadItem_float x with ⟨h, -⟩ | h
    · rw [h]
    · rw [h]
      rfl
  | _ => rfl

theorem floatsFinite_rereadItem {v : Value} (h : v.isList = false) :
    v.rereadItem.FloatsFinite := by
  cases v with
  | float x =>
    rcases rereadItem_float x with ⟨hx, hfinite⟩ | hx
    · rw [hx]
      exact hfinite
    · rw [hx]
      trivial
  | list items => cases h
  | _ => trivial

theorem floatsFinite_map_rereadItem {items : List Value} (h : ∀ v ∈ items, v.isList = false) :
    AllFloatsFinite (items.map rereadItem) := by
  induction items with
  | nil => trivial
  | cons v items ih =>
    obtain ⟨hv, hitems⟩ := List.forall_mem_cons.mp h
    exact ⟨floatsFinite_rereadItem hv, ih hitems⟩

/-- Where lists stand as they may, all doubles that are read are finite. -/
theorem Suits.floatsFinite_reread {op : CompareOperator} {v : Value} (h : v.Suits op) :
    v.reread.FloatsFinite := by
  cases hlist : v.isList with
  | false =>
    rw [reread_of_isList hlist]
    exact floatsFinite_rereadItem hlist
  | true =>
    cases v with
    | list items => exact floatsFinite_map_rereadItem h.2
    | _ => cases hlist

theorem Suits.reread {op : CompareOperator} {v : Value} (h : v.Suits op) : v.reread.Suits op := by
  cases hlist : v.isList with
  | false =>
    rw [reread_of_isList hlist]
    exact suits_of_isList ((isList_rereadItem v).trans hlist) op
  | true =>
    cases v with
    | list items =>
      refine ⟨h.1, List.forall_mem_map.mpr fun v hv => ?_⟩
      exact (isList_rereadItem v).trans (h.2 v hv)
    | _ => cases hlist

/-! ## Values that are words -/

/-- The value is written as one word, which is neither a keyword nor an
operator. -/
structure IsOneWord (v : Value) : Prop where
  isList : v.isList = false
  tokens : v.tokens = [.word v.text]
  isReserved : isReserved v.text = false
  ofKeyword? : CompareOperator.ofKeyword? v.text = none
  ofWord : ofWord v.text = v.reread

theorem isOneWord_of_isWord {v : Value} (h : v.IsWord) : v.IsOneWord := by
  refine ⟨?_, ?_, isReserved_text h, ofKeyword?_text h, ?_⟩
  · cases v <;> first | rfl | exact h.elim
  · cases v <;> first | rfl | exact h.elim
  · rw [ofWord_text h]
    cases v with
    | float x => exact (rereadItem_eq_self (v := .float x) h).symm
    | string s => exact h.elim
    | list items => exact h.elim
    | _ => rfl

theorem isOneWord_float (x : Binary64) : (Value.float x).IsOneWord := by
  cases x with
  | nan => exact ⟨rfl, rfl, by decide, by decide, rfl⟩
  | infinite negative => cases negative <;> exact ⟨rfl, rfl, by decide, by decide, rfl⟩
  | finite negative units fits =>
    exact isOneWord_of_isWord (v := .float (.finite negative units fits)) trivial

/-- A value is a literal, a word or a list. -/
theorem tokens_cases (v : Value) :
    (∃ s, v = .string s) ∨ v.IsOneWord ∨ ∃ items, v = .list items := by
  cases v with
  | string s => exact .inl ⟨s, rfl⟩
  | integer i => exact .inr (.inl (isOneWord_of_isWord (v := .integer i) trivial))
  | float x => exact .inr (.inl (isOneWord_float x))
  | boolean b => exact .inr (.inl (isOneWord_of_isWord (v := .boolean b) trivial))
  | list items => exact .inr (.inr ⟨items, rfl⟩)

end Value

/-! ## Comparisons -/

/-- The path is no keyword, and a list stands only where one may stand. -/
structure Comparison.IsLegible (c : Comparison) : Prop where
  free : isReserved c.path = false
  suits : ∀ v ∈ c.value, v.Suits c.operator

/-- The comparison that the tokens of a comparison are read as. -/
def Comparison.reread (c : Comparison) : Comparison :=
  { c with value := c.value.map Value.reread }

theorem Comparison.reread_eq_self {c : Comparison} (h : ∀ v ∈ c.value, v.FloatsFinite) :
    c.reread = c := by
  obtain ⟨path, op, value⟩ := c
  cases value with
  | none => rfl
  | some v => exact congrArg (Comparison.with path op) (Value.reread_eq_self (h v rfl))

theorem Comparison.isSome_reread (c : Comparison) :
    c.reread.value.isSome = c.value.isSome := by
  obtain ⟨path, op, value⟩ := c
  cases value <;> rfl

theorem Comparison.IsWellFormed.reread {c : Comparison} (h : c.IsWellFormed) :
    c.reread.IsWellFormed :=
  ⟨h.path, by rw [c.isSome_reread]; exact h.value_iff⟩

theorem Comparison.IsLegible.reread {c : Comparison} (h : c.IsLegible) : c.reread.IsLegible := by
  refine ⟨h.free, fun v hv => ?_⟩
  obtain ⟨w, hw, rfl⟩ := Option.map_eq_some_iff.mp (Option.mem_def.mp hv)
  exact (h.suits w hw).reread

theorem Comparison.IsLegible.floatsFinite_reread {c : Comparison} (h : c.IsLegible) :
    ∀ v ∈ c.reread.value, v.FloatsFinite := by
  intro v hv
  obtain ⟨w, hw, rfl⟩ := Option.map_eq_some_iff.mp (Option.mem_def.mp hv)
  exact (h.suits w hw).floatsFinite_reread

/-! ## Expressions -/

namespace Expression

/-- No path is a keyword, and lists stand only where they may stand. -/
abbrev IsLegible (e : Expression) : Prop := e.Each (isReserved · = false) Comparison.IsLegible

/-- The expression that the tokens of an expression of the grammar are read
as. -/
def reread : Expression → Expression
  | .compare c => .compare c.reread
  | .logical op left right => .logical op left.reread right.reread
  | .not inner => .not inner.reread
  | .group inner => .group inner.reread
  | .valuePath path filter => .valuePath path filter.reread

theorem nesting_reread (e : Expression) : e.reread.nesting = e.nesting := by
  induction e with
  | compare c => rfl
  | logical op left right ihl ihr => simp only [reread, nesting, ihl, ihr]
  | not inner ih => exact congrArg (· + 1) ih
  | group inner ih => exact congrArg (· + 1) ih
  | valuePath path filter ih => exact congrArg (· + 1) ih

theorem depth_reread (e : Expression) : e.reread.depth = e.depth := by
  induction e with
  | compare c => rfl
  | logical op left right ihl ihr => simp only [reread, depth, ihl, ihr]
  | not inner ih => exact congrArg (· + 1) ih
  | group inner ih => exact congrArg (· + 1) ih
  | valuePath path filter ih => exact congrArg (· + 1) ih

/-- Every double in the expression is finite. -/
abbrev FloatsFinite (e : Expression) : Prop :=
  e.Each (fun _ => True) fun c => ∀ v ∈ c.value, v.FloatsFinite

theorem reread_eq_self {e : Expression} (h : e.FloatsFinite) : e.reread = e := by
  induction e with
  | compare c => exact congrArg Expression.compare (Comparison.reread_eq_self h)
  | logical op left right ihl ihr => rw [reread, ihl h.1, ihr h.2]
  | not inner ih => exact congrArg Expression.not (ih h)
  | group inner ih => exact congrArg Expression.group (ih h)
  | valuePath path filter ih => exact congrArg (Expression.valuePath path) (ih h.2)

theorem each_reread {path : String → Prop} {comparison : Comparison → Prop} (e : Expression) :
    e.reread.Each path comparison ↔ e.Each path fun c => comparison c.reread := by
  induction e with
  | compare c => rfl
  | logical op left right ihl ihr => exact and_congr ihl ihr
  | not inner ih => exact ih
  | group inner ih => exact ih
  | valuePath path filter ih => exact and_congr_right fun _ => ih

theorem isOr_reread (e : Expression) : e.reread.isOr = e.isOr := by
  cases e with
  | logical op left right => cases op <;> rfl
  | _ => rfl

theorem orsApart_reread {e : Expression} (h : e.OrsApart) : e.reread.OrsApart := by
  induction e with
  | compare c => trivial
  | logical op left right ihl ihr =>
    obtain ⟨hor, hl, hr⟩ := h
    refine ⟨fun hop => ?_, ihl hl, ihr hr⟩
    rw [isOr_reread, isOr_reread]
    exact hor hop
  | not inner ih => exact ih h
  | group inner ih => exact ih h
  | valuePath path filter ih => exact ih h

/-! ## Nesting -/

theorem enclosed_reread (e : Expression) : e.reread.enclosed = e.enclosed.reread := by
  induction e using operandInduction with
  | compare c => rfl
  | logical op left right ihl ihr => rw [reread, enclosed, enclosed, reread, ihl, ihr]
  | not inner ih =>
    have hinner : inner.reread.unparenthesized = inner.unparenthesized.reread := by
      cases inner <;> rfl
    rw [reread, enclosed_not, enclosed_not, hinner, ih]
    rfl
  | group inner ih => exact congrArg Expression.group ih
  | valuePath path filter ih => exact congrArg (Expression.valuePath path) ih

theorem reread_attach (op : LogicalOperator) (left e : Expression) :
    (attach op left e).reread = attach op left.reread e.reread := by
  refine attach_induction (motive := fun e r => r.reread = attach op left.reread e.reread)
    (fun a b ih => ?_) (fun e hne => ?_) e
  · rw [reread, ih, reread, attach, if_pos rfl]
  · refine (attach_eq_logical (fun a b heq => ?_) _).symm
    cases e with
    | logical op' a' b' =>
      obtain ⟨rfl, -, -⟩ := Expression.logical.inj heq
      exact hne a' b' rfl
    | _ => cases heq

theorem leftNested_reread (e : Expression) : e.reread.leftNested = e.leftNested.reread := by
  induction e with
  | compare c => rfl
  | logical op left right ihl ihr =>
    rw [reread, leftNested_logical, leftNested_logical, ihl, ihr, reread_attach]
  | not inner ih => exact congrArg Expression.not ih
  | group inner ih => exact congrArg Expression.group ih
  | valuePath path filter ih => exact congrArg (Expression.valuePath path) ih

theorem canonical_reread (e : Expression) : e.reread.canonical = e.canonical.reread := by
  rw [canonical, canonical, enclosed_reread, leftNested_reread]

end Expression

end PolicyDialects.Filter
