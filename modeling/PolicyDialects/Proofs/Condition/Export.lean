import PolicyDialects.Proofs.Cel.Spelling
import PolicyDialects.Proofs.Filter.Canonical

/-!
# What export to CEL writes

Export puts parentheses around an `or` below an `and` and around the operand
of a `not`, where CEL needs them, and leaves others as they are.
`parenthesized` makes these parentheses part of the expression, so that its
CEL text can be given without looking at what is around it.

Results:

* `toCelAt_identity`: export writes the CEL text of `parenthesized`.
* `toCelAt_mapPaths`: a map of names renames the condition.
* `parse_celText`: the text is read as the tree of the expression, if the
  expression is nested as CEL nests it.
-/

namespace PolicyDialects.Filter.Expression

open Cel (Tree Piece mark EndsLiteral)
open Text

/-! ## Parentheses of the CEL text -/

/-- CEL takes the expression as the operand of `!`, when it is written
behind it. -/
def isOperand : Expression → Bool
  | .compare c => c.operator.isCall
  | .logical _ _ _ => false
  | _ => true

theorem isLogical_of_isOperand {e : Expression} (h : e.isOperand = true) :
    e.isLogical = false := by
  cases e <;> first | rfl | cases h

/-- The negation of an expression, with parentheses if it needs them. -/
def negation (e : Expression) : Expression := if e.isOperand then .not e else .not (.group e)

/-- The expression with the parentheses of its CEL text; the flag says whether
it is an operand of `&&`. -/
def parenthesized : Bool → Expression → Expression
  | _, .compare c => .compare c
  | _, .logical .and left right =>
    .logical .and (parenthesized true left) (parenthesized true right)
  | true, .logical .or left right =>
    .group (.logical .or (parenthesized false left) (parenthesized false right))
  | false, .logical .or left right =>
    .logical .or (parenthesized false left) (parenthesized false right)
  | _, .not (.group inner) => negation (parenthesized false inner)
  | _, .not inner => negation (parenthesized false inner)
  | _, .group inner => .group (parenthesized false inner)
  | _, .valuePath path filter => .valuePath path filter

/-- The CEL text of an expression with the parentheses that it has. -/
def celText : Expression → String
  | .compare c => c.celText
  | .logical .and left right => left.celText ++ " && " ++ right.celText
  | .logical .or left right => left.celText ++ " || " ++ right.celText
  | .not inner => "!" ++ inner.celText
  | .group inner => "(" ++ inner.celText ++ ")"
  | .valuePath _ _ => ""

/-- There is no value path, and every comparison has a text in CEL. -/
abbrev IsExportable (e : Expression) : Prop := e.Each (fun _ => False) Comparison.IsExportable

/-- There is no value path, and every comparison has the value that its operator
takes. Export then writes a text, whatever its paths and doubles are. -/
abbrev IsWritable (e : Expression) : Prop :=
  e.Each (fun _ => False) fun c => c.value.isSome = true ↔ c.operator ≠ .pr

theorem IsExportable.isWritable {e : Expression} (he : e.IsExportable) : e.IsWritable :=
  he.imp (fun _ hp => hp) fun _ hc => hc.value_iff

theorem parenthesized_not (u : Bool) (inner : Expression) :
    parenthesized u (.not inner) = negation (parenthesized false inner.unparenthesized) := by
  cases inner <;> rfl

theorem each_unparenthesized {path : String → Prop} {comparison : Comparison → Prop}
    (e : Expression) : e.unparenthesized.Each path comparison ↔ e.Each path comparison := by
  cases e <;> rfl

theorem depth_unparenthesized_le (e : Expression) : e.unparenthesized.depth ≤ e.depth := by
  cases e with
  | group inner => exact Nat.le_succ _
  | _ => exact Nat.le_refl _

theorem isOperand_parenthesized {e : Expression} (he : e.IsWritable) :
    (parenthesized false e).isOperand = e.isOperand := by
  cases e with
  | compare c => rfl
  | logical op left right => cases op <;> rfl
  | not inner => rw [parenthesized_not, negation]; split <;> rfl
  | group inner => rfl
  | valuePath path filter => exact he.1.elim

/-! ## Export -/

theorem toCelAt_not (names : NameMap) (u : Bool) {d : Nat} (hd : ¬maxDepth < d)
    (inner : Expression) :
    toCelAt names u d (.not inner) =
      toCelAt.negated names inner.unparenthesized
        (toCelAt names false (d + 1) inner.unparenthesized) := by
  cases inner <;> rw [toCelAt, if_neg hd] <;> first | rfl | simp

/-- The text of a negation, given that of its operand. -/
theorem negated_identity {inner : Expression} (he : inner.IsWritable) :
    toCelAt.negated .identity inner (.ok (parenthesized false inner).celText) =
      .ok (negation (parenthesized false inner)).celText := by
  have hgroup : ∀ t : String, "!(" ++ t ++ ")" = "!" ++ ("(" ++ t ++ ")") := by
    intro t; rw [← String.append_assoc, ← String.append_assoc]; rfl
  rw [negation, isOperand_parenthesized he]
  cases inner with
  | compare c =>
    unfold toCelAt.negated isOperand
    by_cases hcall : c.operator.isCall = true
    · simp only [hcall, if_true]; rfl
    · simp only [hcall, Cel.toCel_identity he]
      exact congrArg Except.ok (hgroup _)
  | logical op left right =>
    exact congrArg Except.ok (hgroup _)
  | not inner => rfl
  | group inner => rfl
  | valuePath path filter => exact he.1.elim

/-- Export writes the CEL text of the expression with its parentheses. -/
theorem toCelAt_identity {u : Bool} {d : Nat} {e : Expression} (he : e.IsWritable)
    (hd : d + e.depth ≤ maxDepth + 1) :
    toCelAt .identity u d e = .ok (parenthesized u e).celText := by
  have hbound : ∀ {n : Nat}, d + (n + 1) ≤ maxDepth + 1 → ¬maxDepth < d := by
    intro n h; omega
  induction e using operandInduction generalizing u d with
  | compare c =>
    rw [toCelAt, if_neg (hbound hd)]
    exact Cel.toCel_identity he
  | logical op left right ihl ihr =>
    simp only [depth] at hd
    cases op with
    | and =>
      rw [toCelAt, if_neg (hbound hd)]
      simp only [ihl he.1 (u := true) (d := d + 1) (by omega) (by omega),
        ihr he.2 (u := true) (d := d + 1) (by omega) (by omega)]
      rfl
    | or =>
      rw [toCelAt, if_neg (hbound hd)]
      simp only [ihl he.1 (u := false) (d := d + 1) (by omega) (by omega),
        ihr he.2 (u := false) (d := d + 1) (by omega) (by omega)]
      cases u <;> rfl
  | not inner ih =>
    have hinner : inner.unparenthesized.IsWritable := (each_unparenthesized inner).mpr he
    have hdepth := inner.depth_unparenthesized_le
    simp only [depth] at hd
    rw [toCelAt_not _ _ (hbound hd), parenthesized_not,
      ih hinner (u := false) (d := d + 1) (by omega) (by omega)]
    exact negated_identity hinner
  | group inner ih =>
    simp only [depth] at hd
    rw [toCelAt, if_neg (hbound hd)]
    simp only [ih he (u := false) (d := d + 1) (by omega) (by omega)]
    rfl
  | valuePath path filter => exact he.1.elim

/-! ## Names -/

theorem toCel_mapPath {names : NameMap} {c : Comparison}
    (h : names.resolveProvider c.path = .ok (names.toProvider c.path)) :
    c.toCel names = (c.mapPath names.toProvider).toCel .identity := by
  have hpath : NameMap.identity.resolveProvider (names.toProvider c.path) =
      .ok (names.toProvider c.path) := NameMap.resolve_identity _ _
  unfold Comparison.toCel Comparison.mapPath
  rw [h]
  dsimp only
  rw [hpath]

/-- A map has a name for every attribute; there are no value filters. -/
abbrev IsResolved (names : NameMap) (e : Expression) : Prop :=
  e.Each (fun _ => False) fun c => names.resolveProvider c.path = .ok (names.toProvider c.path)

theorem negated_mapPaths {names : NameMap} {inner : Expression} (h : inner.IsResolved names)
    (text : Except PolicyError String) :
    toCelAt.negated names inner text =
      toCelAt.negated .identity (inner.mapPaths names.toProvider) text := by
  cases inner with
  | compare c =>
    unfold toCelAt.negated mapPaths
    dsimp only
    rw [toCel_mapPath h]
    rfl
  | _ => rfl

/-- Export with a map is export of the renamed condition. -/
theorem toCelAt_mapPaths {names : NameMap} {e : Expression} (h : e.IsResolved names) (u : Bool)
    (d : Nat) : e.toCelAt names u d = (e.mapPaths names.toProvider).toCelAt .identity u d := by
  induction e using operandInduction generalizing u d with
  | compare c => simp only [mapPaths, toCelAt, toCel_mapPath h]
  | logical op left right ihl ihr =>
    cases op <;> simp only [mapPaths, toCelAt, ihl h.1, ihr h.2]
  | not inner ih =>
    have hinner : inner.unparenthesized.IsResolved names := by
      cases inner <;> exact h
    have hmapped : (inner.mapPaths names.toProvider).unparenthesized =
        inner.unparenthesized.mapPaths names.toProvider := by
      cases inner <;> rfl
    by_cases hd : maxDepth < d
    · rw [toCelAt.eq_def, if_pos hd, toCelAt.eq_def, if_pos hd]
    · rw [mapPaths, toCelAt_not _ _ hd, toCelAt_not _ _ hd, hmapped, ih hinner,
        negated_mapPaths hinner]
  | group inner ih => simp only [mapPaths, toCelAt, ih h]
  | valuePath path filter => exact h.1.elim

/-! ## Pieces and trees -/

/-- The pieces of the CEL text. -/
def celPieces : Expression → List Piece
  | .compare c => c.celPieces
  | .logical .and left right => left.celPieces ++ mark .andAnd :: right.celPieces
  | .logical .or left right => left.celPieces ++ mark .orOr :: right.celPieces
  | .not (.not inner) => mark .bangBang :: inner.celPieces
  | .not inner => mark .bang :: inner.celPieces
  | .group inner => mark .leftParen :: (inner.celPieces ++ [mark .rightParen])
  | .valuePath _ _ => []

/-- The tree of those pieces. -/
def celTree : Expression → Tree
  | .compare c => c.celTree
  | .logical .and left right => .and left.celTree right.celTree
  | .logical .or left right => .or left.celTree right.celTree
  | .not (.not inner) => .unary .doubleNot inner.celTree
  | .not inner => .unary .not inner.celTree
  | .group inner => inner.celTree
  | .valuePath _ _ => .constant .null

/-- Neither an operator nor a relation is outside of parentheses. -/
def isAtom : Expression → Bool
  | .compare c => c.operator.isCall
  | .group _ => true
  | _ => false

/-- At most one `!` may stand in front of the operand of another. -/
def isNegatable : Expression → Bool
  | .not inner => inner.isAtom
  | e => e.isAtom

/-- Every operand of `not` may stand behind `!` in CEL. -/
def NotsSpelled : Expression → Prop
  | .compare _ => True
  | .logical _ left right => left.NotsSpelled ∧ right.NotsSpelled
  | .not inner => inner.isNegatable = true ∧ inner.NotsSpelled
  | .group inner => inner.NotsSpelled
  | .valuePath _ filter => filter.NotsSpelled

/-- Every operand of `not` is one operand of `!`, which may have any number of
`!` itself. -/
def NotsOpen : Expression → Prop
  | .compare _ => True
  | .logical _ left right => left.NotsOpen ∧ right.NotsOpen
  | .not inner => inner.isOperand = true ∧ inner.NotsOpen
  | .group inner => inner.NotsOpen
  | .valuePath _ filter => filter.NotsOpen

theorem isOperand_of_isNegatable {e : Expression} (h : e.isNegatable = true) :
    e.isOperand = true := by
  cases e <;> first | rfl | exact h

theorem NotsSpelled.notsOpen {e : Expression} (h : e.NotsSpelled) : e.NotsOpen := by
  induction e with
  | compare c => trivial
  | logical op left right ihl ihr => exact ⟨ihl h.1, ihr h.2⟩
  | not inner ih => exact ⟨isOperand_of_isNegatable h.1, ih h.2⟩
  | group inner ih => exact ih h
  | valuePath path filter ih => exact ih h

theorem NotsOpen.notsTight {e : Expression} (h : e.NotsOpen) : e.NotsTight := by
  induction e with
  | compare c => trivial
  | logical op left right ihl ihr => exact ⟨ihl h.1, ihr h.2⟩
  | not inner ih => exact ⟨isLogical_of_isOperand h.1, ih h.2⟩
  | group inner ih => exact ih h
  | valuePath path filter ih => exact ih h

/-- An operand of `!` that is no negation is an atom. -/
theorem isAtom_of_isOperand {e : Expression} (h : e.isOperand = true) (he : e.IsWritable)
    (hne : ∀ inner, e ≠ .not inner) : e.isAtom = true := by
  cases e with
  | compare c => exact h
  | logical op left right => cases h
  | not inner => exact absurd rfl (hne inner)
  | group inner => rfl
  | valuePath path filter => exact he.1.elim

theorem isAtom_of_isNegatable {e : Expression} (h : e.isNegatable = true)
    (hne : ∀ inner, e ≠ .not inner) : e.isAtom = true := by
  cases e with
  | not inner => exact absurd rfl (hne inner)
  | _ => exact h

/-! ## Lexemes -/

/-- A `!` in front of the text makes no longer mark with it. -/
abbrev StartsApart (cs : List Char) : Prop := Stops (fun c => c == '!' || c == '=') cs

/-- The text of an atom starts as its path does, with `has` or with a
parenthesis. -/
theorem startsApart_celText {e : Expression} (he : e.IsWritable)
    (hpaths : e.Each (fun _ => False) fun c => ∀ cs, StartsApart (c.path.toList ++ cs))
    (hatom : e.isAtom = true) (rest : List Char) : StartsApart (e.celText.toList ++ rest) := by
  cases e with
  | group inner =>
    simp only [celText, String.toList_append]
    exact stops_cons (by decide) _
  | compare c => exact Cel.stops_celText he hpaths (by decide) rest
  | _ => cases hatom

theorem startsApart_path {path : String} (h : IsAttributePath path) (cs : List Char) :
    StartsApart (path.toList ++ cs) := by
  have hne : ∀ y, isIdentStart y = true → (y == '!' || y == '=') = false := by
    intro y hy
    have hascii : y.toNat < 128 := Cel.toNat_lt_of_isIdentPart (by simp [isIdentPart, hy])
    revert hy
    exact of_ascii hascii (by decide)
  obtain ⟨x, xs, hxs, hx⟩ := Cel.exists_start_path h
  rw [hxs]
  exact stops_cons (hne x hx) _

/-- The CEL text of an expression is cut into its pieces. -/
theorem lexes_celText {e : Expression} (he : e.IsExportable) (hnots : e.NotsOpen)
    {rest : List Char} {ps : List Piece} (hrest : EndsLiteral rest) (hps : Cel.Lexes rest ps) :
    Cel.Lexes (e.celText.toList ++ rest) (e.celPieces ++ ps) := by
  fun_induction celPieces e generalizing rest ps with
  | case1 c => exact Cel.lexes_comparison he hrest hps
  | case2 left right ihl ihr =>
    have hright := ihr he.2 hnots.2 hrest hps
    have hmark := Cel.lexes_mark (s := .andAnd) (by decide) (Cel.lexes_blank hright)
    have hleft := ihl he.1 hnots.1 (Cel.endsLiteral_blank (by decide) _) (Cel.lexes_blank hmark)
    simpa [celText, mark, Cel.Symbol.spelling] using hleft
  | case3 left right ihl ihr =>
    have hright := ihr he.2 hnots.2 hrest hps
    have hmark := Cel.lexes_mark (s := .orOr) (by decide) (Cel.lexes_blank hright)
    have hleft := ihl he.1 hnots.1 (Cel.endsLiteral_blank (by decide) _) (Cel.lexes_blank hmark)
    simpa [celText, mark, Cel.Symbol.spelling] using hleft
  | case4 inner ih =>
    have hinner := ih he hnots.2.2 hrest hps
    have hmark := Cel.lexes_mark (s := .bangBang) (by decide) hinner
    simpa [celText, mark, Cel.Symbol.spelling] using hmark
  | case5 inner hne ih =>
    have hinner := ih he hnots.2 hrest hps
    have hatom := isAtom_of_isOperand hnots.1 (IsExportable.isWritable (e := inner) he)
      fun x h => hne x h
    have hstarts := startsApart_celText (IsExportable.isWritable (e := inner) he)
      (he.imp (fun _ hp => hp) fun _ hc => startsApart_path hc.path) hatom rest
    have hmark := Cel.lexes_openMark (s := .bang) (by decide) hstarts hinner
    simpa [celText, mark, Cel.Symbol.spelling] using hmark
  | case6 inner ih =>
    have hinner := Cel.lexes_arguments (fun hrest hps => ih he hnots hrest hps) hps
    simpa [celText] using hinner
  | case7 => exact he.1.elim

/-! ## Reading -/

/-- The readers of CEL, each on the expressions of its level. -/
structure ReadsAtLevels (e : Expression) : Prop where
  atom : e.isAtom = true → Cel.ReadMember e.celPieces e.celTree
  term : e.isLogical = false → Cel.ReadComparison e.celPieces e.celTree
  and : e.isOr = false → Cel.ReadAnd e.celPieces e.celTree
  or : Cel.ReadOr e.celPieces e.celTree

theorem readsAtLevels_of_term {e : Expression}
    (hatom : e.isAtom = true → Cel.ReadMember e.celPieces e.celTree)
    (h : Cel.ReadComparison e.celPieces e.celTree) : ReadsAtLevels e :=
  ⟨hatom, fun _ => h, fun _ => h.readAnd, h.readAnd.readOr⟩

theorem celPieces_ne_nil {e : Expression} (he : e.IsExportable) : e.celPieces ≠ [] := by
  fun_cases celPieces e with
  | case1 c => exact Cel.celPieces_ne_nil c
  | case7 => exact he.1.elim
  | _ => simp

/-- The readers follow the nesting. -/
theorem readsAtLevels {e : Expression} (he : e.IsExportable) (hnots : e.NotsSpelled)
    (hg : e.IsGrammatical) : ReadsAtLevels e := by
  fun_induction celPieces e with
  | case1 c =>
    exact readsAtLevels_of_term (fun hcall => Cel.readMember_comparison he hcall)
      (Cel.readComparison_comparison he)
  | case2 left right ihl ihr =>
    obtain ⟨hleft, hright, hgl, hgr⟩ := hg
    have h := Cel.readAnd_and ((ihl he.1 hnots.1 hgl).and hleft)
      ((ihr he.2 hnots.2 hgr).term hright) (celPieces_ne_nil he.2)
    exact ⟨fun hf => (by cases hf), fun hf => (by cases hf), fun _ => h, h.readOr⟩
  | case3 left right ihl ihr =>
    obtain ⟨hright, hgl, hgr⟩ := hg
    have h := Cel.readOr_or (ihl he.1 hnots.1 hgl).or
      ((ihr he.2 hnots.2 hgr).and hright) (celPieces_ne_nil he.2)
    exact ⟨fun hf => (by cases hf), fun hf => (by cases hf), fun hf => (by cases hf), h⟩
  | case4 inner ih =>
    have hatom := (ih he hnots.2.2 hg.2.2).atom hnots.1
    have h := @Cel.ReadMember.negated .bangBang .doubleNot _ _ rfl hatom
    exact readsAtLevels_of_term (fun hf => (by cases hf)) h.readComparison
  | case5 inner hne ih =>
    have hatom := (ih he hnots.2 hg.2).atom (isAtom_of_isNegatable hnots.1 fun x h => hne x h)
    have h := @Cel.ReadMember.negated .bang .not _ _ rfl hatom
    refine readsAtLevels_of_term (fun hf => (by cases hf)) ?_
    rw [celPieces, celTree]
    · exact h.readComparison
    · exact hne
    · exact hne
  | case6 inner ih =>
    have h := Cel.readMember_paren (ih he hnots hg).or.readExpr
    exact readsAtLevels_of_term (fun _ => h) h.readUnary.readComparison
  | case7 => exact he.1.elim

/-- The CEL text of an expression is read as its tree. -/
theorem parse_celText {e : Expression} (he : e.IsExportable) (hnots : e.NotsSpelled)
    (hg : e.IsGrammatical) : Tree.parse e.celText = .ok e.celTree := by
  have hlexes := lexes_celText he hnots.notsOpen Cel.endsLiteral_nil Cel.lexes_nil
  rw [List.append_nil, List.append_nil] at hlexes
  exact (readsAtLevels he hnots hg).or.readExpr.parse_eq hlexes

end PolicyDialects.Filter.Expression
