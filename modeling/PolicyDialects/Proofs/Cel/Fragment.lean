import PolicyDialects.Proofs.Cel.Grammar
import PolicyDialects.Proofs.Cel.Import

/-!
# The pieces of conditions that can be imported

What can be imported has few shapes: attribute paths, constants, comparisons of
both, and their combinations. Properties of the pieces of such a text are proved
for these shapes only.

* `ConditionRules` — one rule for each way to write a path, a literal, a
  constant or a condition. A condition is known by its comparisons.

Results:

* `ConditionRules.of_imports`: what every rule keeps holds of a text that can
  be imported.
-/

namespace PolicyDialects.Cel

open PolicyDialects.Filter (Comparison Expression Value)

/-- Each way to write something that can be imported keeps the four properties.
`path` is for attribute paths and their negations. -/
structure ConditionRules (path : List Piece → Prop) (literal : Constant → List Piece → Prop)
    (constant : Value → List Piece → Prop) (condition : List Comparison → List Piece → Prop) :
    Prop where
  pathHead {name : String} {ps : List Piece} (h : IsHead name ps) : path ps
  pathSelect {ps : List Piece} (h : path ps) (name : String) (text : List Char) :
    path (ps ++ [(.symbol .dot, text)] ++ [word name])
  pathNot {ps : List Piece} (h : path ps) (text : List Char) :
    path ([(.symbol .bang, text)] ++ ps)
  pathParen {ps : List Piece} (h : path ps) (start finish : List Char) :
    path ([(.symbol .leftParen, start)] ++ ps ++ [(.symbol .rightParen, finish)])
  literalToken {kind : LiteralKind} {text : List Char} {c : Constant}
    (h : literalValue? kind text = some c) : literal c [(.literal kind, text)]
  literalReserved {s : Symbol} {c : Constant} (h : (s, c) ∈ reservedConstants) (text : List Char) :
    literal c [(.symbol s, text)]
  literalParen {c : Constant} {ps : List Piece} (h : literal c ps) (start finish : List Char) :
    literal c ([(.symbol .leftParen, start)] ++ ps ++ [(.symbol .rightParen, finish)])
  constantPositive {c : Constant} {v : Value} {ps : List Piece} (h : literal c ps)
    (hv : c.value false = .ok v) : constant v ps
  constantNegative {c : Constant} {v : Value} {ps : List Piece} (h : literal c ps)
    (hv : c.value true = .ok v) (text : List Char) : constant v ([(.symbol .minus, text)] ++ ps)
  constantList {vs : List Value} {qs : List Piece} (h : ItemPieces constant .rightBracket vs qs)
    (text : List Char) : constant (.list vs) ([(.symbol .leftBracket, text)] ++ qs)
  constantParen {v : Value} {ps : List Piece} (h : constant v ps) (start finish : List Char) :
    constant v ([(.symbol .leftParen, start)] ++ ps ++ [(.symbol .rightParen, finish)])
  conditionPresent {arg : Tree} {ps qs : List Piece} (hps : IsHead "has" ps)
    (harg : ItemPieces (fun _ => path) .rightParen [arg] qs) (p : String) (text : List Char) :
    condition [.present p] (ps ++ [(.symbol .leftParen, text)] ++ qs)
  conditionMethod {name : String} {c : Comparison} {v : Value} {ps qs : List Piece}
    (hpath : path ps) (hname : name ≠ "has") (hv : ItemPieces constant .rightParen [v] qs)
    (hc : c.value = some v) (dot paren : List Char) :
    condition [c]
      (ps ++ [(.symbol .dot, dot)] ++ [word name] ++ [(.symbol .leftParen, paren)] ++ qs)
  conditionRelation {s : Symbol} {c : Comparison} {v : Value} {ps qs : List Piece}
    (hs : s ∈ relations) (hpath : path ps) (hv : constant v qs) (hc : c.value = some v)
    (text : List Char) :
    condition [c] (ps ++ [(.symbol s, text)] ++ qs)
  conditionJoin {s : Symbol} {cs ds : List Comparison} {ps qs : List Piece} (hs : s ∈ [.andAnd, .orOr])
    (hps : condition cs ps) (hqs : condition ds qs) (text : List Char) :
    condition (cs ++ ds) (ps ++ [(.symbol s, text)] ++ qs)
  conditionNot {s : Symbol} {cs : List Comparison} {ps : List Piece} (hs : s ∈ [.bang, .bangBang])
    (h : condition cs ps) (text : List Char) : condition cs ([(.symbol s, text)] ++ ps)
  conditionParen {cs : List Comparison} {ps : List Piece} (h : condition cs ps)
    (start finish : List Char) :
    condition cs ([(.symbol .leftParen, start)] ++ ps ++ [(.symbol .rightParen, finish)])

/-! ## Shapes of expressions -/

/-- An attribute path, or its negation in front of a relation. -/
def Tree.IsPathlike : Tree → Prop
  | .unary .not inner => ∃ p, inner.selectPath = .ok p
  | e => ∃ p, e.selectPath = .ok p

theorem isPathlike_of_selectPath {t : Tree} {p : String} (h : t.selectPath = .ok p) :
    t.IsPathlike := by
  cases t with
  | ident name => exact ⟨p, h⟩
  | select e name => exact ⟨p, h⟩
  | _ => cases h

/-- The pieces of an expression have each property for which the expression has the
shape. -/
structure Shapes (path : List Piece → Prop) (literal : Constant → List Piece → Prop)
    (constant : Value → List Piece → Prop) (condition : List Comparison → List Piece → Prop)
    (t : Tree) (ps : List Piece) : Prop where
  ofPath : t.IsPathlike → path ps
  ofLiteral : ∀ c, t = .constant c → literal c ps
  ofConstant : ∀ v, t.constantValue = .ok v → constant v ps
  ofCondition : ∀ u e, Tree.Imports u t e → condition e.comparisons ps

/-- The shapes of conditions. -/
def Tree.isCondition : Tree → Bool
  | .unary .not _ => true
  | .unary .doubleNot _ => true
  | .relation _ _ _ => true
  | .and _ _ => true
  | .or _ _ => true
  | .call _ _ => true
  | .methodCall _ _ _ => true
  | _ => false

theorem Tree.Imports.isCondition {u : Bool} {t : Tree} {e : Expression} (h : Tree.Imports u t e) :
    t.isCondition = true := by
  cases h with
  | compare hc =>
    rcases Tree.comparison?_eq_some hc with ⟨_, _, _, _, _, rfl, -⟩ | ⟨_, _, rfl, -⟩ |
      ⟨_, _, _, _, _, _, rfl, -⟩ <;> rfl
  | _ => rfl

/-- The shapes of paths, their negations, and constants. -/
def Tree.isOperand : Tree → Bool
  | .ident _ => true
  | .select _ _ => true
  | .constant _ => true
  | .list _ => true
  | .unary .not _ => true
  | .unary .minus _ => true
  | _ => false

section

variable {P : List Piece → Prop} {L : Constant → List Piece → Prop}
  {C : Value → List Piece → Prop} {Q : List Comparison → List Piece → Prop}

/-- What is no operand has the shapes as far as it is a condition. -/
theorem shapes_of_condition {t : Tree} {ps : List Piece} (h : t.isOperand = false)
    (hcondition : ∀ u e, Tree.Imports u t e → Q e.comparisons ps) : Shapes P L C Q t ps where
  ofPath hp := by
    cases t with
    | unary op e =>
      cases op with
      | not => cases h
      | _ => obtain ⟨_, hp⟩ := hp; cases hp
    | ident name => cases h
    | select e name => cases h
    | _ => obtain ⟨_, hp⟩ := hp; cases hp
  ofLiteral c hc := by
    subst hc
    cases h
  ofConstant v hv := by
    cases t with
    | unary op e =>
      cases op with
      | minus => cases h
      | _ => cases hv
    | constant c => cases h
    | list items => cases h
    | _ => cases hv
  ofCondition := hcondition

/-- Nothing that can be imported has a part of such a shape. -/
theorem shapes_of_foreign {t : Tree} (hoperand : t.isOperand = false)
    (hcondition : t.isCondition = false) (ps : List Piece) : Shapes P L C Q t ps := by
  refine shapes_of_condition hoperand fun u e he => ?_
  rw [he.isCondition] at hcondition
  cases hcondition

/-- Items that are related one by one to others, which have a property instead. -/
theorem ItemPieces.forall₂ {α β : Type} {q : α → List Piece → Prop} {q' : β → List Piece → Prop}
    {close : Symbol} {xs : List α} {ys : List β} {qs : List Piece} (h : ItemPieces q close xs qs)
    (hxs : List.Forall₂ (fun x y => ∀ ps, q x ps → q' y ps) xs ys) : ItemPieces q' close ys qs := by
  induction h generalizing ys with
  | nil text =>
    cases hxs
    exact .nil text
  | last hx text =>
    cases hxs with
    | cons hy hrest =>
      cases hrest
      exact .last (hy _ hx) text
  | cons hx text _ ih =>
    cases hxs with
    | cons hy hrest => exact .cons (hy _ hx) text (ih hrest)

theorem forall₂_constantValues {items : List Tree} {vs : List Value}
    (h : Tree.constantValues items = .ok vs) :
    List.Forall₂ (fun t v => t.constantValue = .ok v) items vs := by
  induction items generalizing vs with
  | nil =>
    cases h
    exact .nil
  | cons t items ih =>
    obtain ⟨v, hv, h⟩ := bind_eq_ok.mp h
    obtain ⟨ws, hws, h⟩ := bind_eq_ok.mp h
    cases h
    exact .cons hv (ih hws)

theorem ItemPieces.constants {close : Symbol} {items : List Tree} {vs : List Value}
    {qs : List Piece} (h : ItemPieces (Shapes P L C Q) close items qs)
    (hvs : Tree.constantValues items = .ok vs) : ItemPieces C close vs qs :=
  h.forall₂ ((forall₂_constantValues hvs).imp fun _ v hv _ ht => ht.ofConstant v hv)

theorem ItemPieces.path {close : Symbol} {arg : Tree} {qs : List Piece}
    (h : ItemPieces (Shapes P L C Q) close [arg] qs) (harg : arg.IsPathlike) :
    ItemPieces (fun _ => P) close [arg] qs :=
  h.forall₂ (.cons (fun _ ht => ht.ofPath harg) .nil)

theorem shapes_constant (hrules : ConditionRules P L C Q) {c : Constant} {ps : List Piece}
    (h : L c ps) : Shapes P L C Q (.constant c) ps where
  ofPath hp := by
    obtain ⟨_, hp⟩ := hp
    cases hp
  ofLiteral c' hc := by
    cases hc
    exact h
  ofConstant v hv := hrules.constantPositive h hv
  ofCondition u e he := nomatch he.isCondition

theorem shapes_call (hrules : ConditionRules P L C Q) {name : String} {args : List Tree}
    {ps qs : List Piece} (hname : IsHead name ps)
    (hargs : ItemPieces (Shapes P L C Q) .rightParen args qs) (text : List Char) :
    Shapes P L C Q (.call name args) (ps ++ [(.symbol .leftParen, text)] ++ qs) := by
  refine shapes_of_condition rfl fun u e he => ?_
  cases he with
  | compare hc =>
    rcases Tree.comparison?_eq_some hc with ⟨_, _, _, _, _, h, -⟩ | ⟨arg, path, h, hpath, rfl⟩ |
      ⟨_, _, _, _, _, _, h, -⟩ <;> cases h
    exact hrules.conditionPresent hname (hargs.path (isPathlike_of_selectPath hpath)) path text

theorem shapes_methodCall (hrules : ConditionRules P L C Q) {e : Tree} {name : String}
    {args : List Tree} {ps qs : List Piece} (he : Shapes P L C Q e ps)
    (hargs : ItemPieces (Shapes P L C Q) .rightParen args qs) (dot paren : List Char) :
    Shapes P L C Q (.methodCall e name args)
      (ps ++ [(.symbol .dot, dot)] ++ [word name] ++ [(.symbol .leftParen, paren)] ++ qs) := by
  refine shapes_of_condition rfl fun u e' he' => ?_
  cases he' with
  | compare hc =>
    rcases Tree.comparison?_eq_some hc with ⟨_, _, _, _, _, h, -⟩ | ⟨_, _, h, -⟩ |
      ⟨receiver, name, arg, op, path, value, h, hop, hpath, hvalue, rfl⟩ <;> cases h
    have hvalues : Tree.constantValues [arg] = .ok [value] := bind_eq_ok.mpr ⟨value, hvalue, rfl⟩
    exact hrules.conditionMethod (he.ofPath (isPathlike_of_selectPath hpath))
      (Tree.methodOperator?_eq_some hop).1 (hargs.constants hvalues) rfl dot paren

theorem shapes_unary (hrules : ConditionRules P L C Q) {token : Token} {op : Negation} {e : Tree}
    {ps : List Piece} (hop : negation? token = some op) (he : Shapes P L C Q e ps)
    (text : List Char) : Shapes P L C Q (.unary op e) ([(token, text)] ++ ps) := by
  unfold negation? at hop
  split at hop <;> cases hop
  · exact {
      ofPath := fun ⟨p, hp⟩ => hrules.pathNot (he.ofPath (isPathlike_of_selectPath hp)) text
      ofLiteral := nofun
      ofConstant := fun v hv => by cases hv
      ofCondition := fun u e' he' => by
        cases he' with
        | compare hc => cases hc
        | not hc => exact hrules.conditionNot (by decide) (he.ofCondition _ _ hc) text }
  · refine shapes_of_condition rfl fun u e' he' => ?_
    cases he' with
    | compare hc => cases hc
    | doubleNot hc => exact hrules.conditionNot (by decide) (he.ofCondition _ _ hc) text
  · exact {
      ofPath := fun ⟨p, hp⟩ => by cases hp
      ofLiteral := nofun
      ofConstant := fun v hv => by
        cases e with
        | constant c => exact hrules.constantNegative (he.ofLiteral c rfl) hv text
        | _ => cases hv
      ofCondition := fun u e' he' => nomatch he'.isCondition }
  · exact shapes_of_foreign rfl rfl _

theorem shapes_relation (hrules : ConditionRules P L C Q) {l r : Tree} {s : Symbol}
    {ps qs : List Piece} (hs : s ∈ relations) (hl : Shapes P L C Q l ps)
    (hr : Shapes P L C Q r qs) (op : Relation) (text : List Char) :
    Shapes P L C Q (.relation op l r) (ps ++ [(.symbol s, text)] ++ qs) := by
  refine shapes_of_condition rfl fun u e he => ?_
  cases he with
  | compare hc =>
    rcases Tree.comparison?_eq_some hc with ⟨_, _, _, path, value, h, hpath, hvalue, rfl⟩ |
      ⟨_, _, h, -⟩ | ⟨_, _, _, _, _, _, h, -⟩ <;> cases h
    exact hrules.conditionRelation hs (hl.ofPath (isPathlike_of_selectPath hpath))
      (hr.ofConstant value hvalue) rfl text
  | notCompare hc =>
    rcases Tree.comparison?_eq_some hc with ⟨_, _, _, path, value, h, hpath, hvalue, rfl⟩ |
      ⟨_, _, h, -⟩ | ⟨_, _, _, _, _, _, h, -⟩ <;> cases h
    exact hrules.conditionRelation hs (hl.ofPath ⟨path, hpath⟩) (hr.ofConstant value hvalue)
      rfl text

theorem shapes_and (hrules : ConditionRules P L C Q) {l r : Tree} {ps qs : List Piece}
    (hl : Shapes P L C Q l ps) (hr : Shapes P L C Q r qs) (text : List Char) :
    Shapes P L C Q (.and l r) (ps ++ [(.symbol .andAnd, text)] ++ qs) := by
  refine shapes_of_condition rfl fun u e he => ?_
  cases he with
  | compare hc => cases hc
  | and hcl hcr =>
    exact hrules.conditionJoin (by decide) (hl.ofCondition _ _ hcl) (hr.ofCondition _ _ hcr) text

theorem shapes_or (hrules : ConditionRules P L C Q) {l r : Tree} {ps qs : List Piece}
    (hl : Shapes P L C Q l ps) (hr : Shapes P L C Q r qs) (text : List Char) :
    Shapes P L C Q (.or l r) (ps ++ [(.symbol .orOr, text)] ++ qs) := by
  refine shapes_of_condition rfl fun u e he => ?_
  cases he with
  | compare hc => cases hc
  | or hcl hcr =>
    exact hrules.conditionJoin (by decide) (hl.ofCondition _ _ hcl) (hr.ofCondition _ _ hcr) text
  | group hcl hcr =>
    exact hrules.conditionJoin (by decide) (hl.ofCondition _ _ hcl) (hr.ofCondition _ _ hcr) text

/-- Every rule of the grammar keeps the shapes. -/
theorem ConditionRules.followsGrammar (hrules : ConditionRules P L C Q) :
    FollowsGrammar (Shapes P L C Q) where
  ident h :=
    { ofPath := fun _ => hrules.pathHead h
      ofLiteral := nofun
      ofConstant := fun v hv => by cases hv
      ofCondition := fun u e he => nomatch he.isCondition }
  literal h := shapes_constant hrules (hrules.literalToken h)
  reserved h text := shapes_constant hrules (hrules.literalReserved h text)
  call hname hargs text := shapes_call hrules hname hargs text
  list h text :=
    { ofPath := fun ⟨p, hp⟩ => by cases hp
      ofLiteral := nofun
      ofConstant := fun v hv => by
        obtain ⟨vs, hvs, hv⟩ := bind_eq_ok.mp hv
        cases hv
        exact hrules.constantList (h.constants hvs) text
      ofCondition := fun u e he => nomatch he.isCondition }
  map _ _ := shapes_of_foreign rfl rfl _
  paren he start finish :=
    { ofPath := fun hp => hrules.pathParen (he.ofPath hp) start finish
      ofLiteral := fun c hc => hrules.literalParen (he.ofLiteral c hc) start finish
      ofConstant := fun v hv => hrules.constantParen (he.ofConstant v hv) start finish
      ofCondition := fun u e he' => hrules.conditionParen (he.ofCondition u e he') start finish }
  select he name text :=
    { ofPath := fun ⟨p, hp⟩ => by
        obtain ⟨front, hfront, -⟩ := bind_eq_ok.mp hp
        exact hrules.pathSelect (he.ofPath (isPathlike_of_selectPath hfront)) name text
      ofLiteral := nofun
      ofConstant := fun v hv => by cases hv
      ofCondition := fun u e he => nomatch he.isCondition }
  methodCall he hargs dot paren := shapes_methodCall hrules he hargs dot paren
  index _ _ _ _ := shapes_of_foreign rfl rfl _
  fields _ _ _ := shapes_of_foreign rfl rfl _
  unary hop he text := shapes_unary hrules hop he text
  arithmetic _ _ _ _ _ := shapes_of_foreign rfl rfl _
  relation hs hl hr op text := shapes_relation hrules hs hl hr op text
  and hl hr text := shapes_and hrules hl hr text
  or hl hr text := shapes_or hrules hl hr text
  ternary _ _ _ _ _ := shapes_of_foreign rfl rfl _

/-- What every rule keeps holds of a text that can be imported. -/
theorem ConditionRules.of_imports (hrules : ConditionRules P L C Q) {text : String} {t : Tree}
    {u : Bool} {e : Expression} (hparse : Tree.parse text = .ok t) (himports : Tree.Imports u t e) :
    ∃ ts finish, lexemes text.toList = (ts, .complete finish) ∧
      Q e.comparisons (ts.map Lexeme.piece) := by
  obtain ⟨ts, finish, hts, hshapes⟩ := hrules.followsGrammar.of_parse hparse
  exact ⟨ts, finish, hts, hshapes.ofCondition u e himports⟩

end

end PolicyDialects.Cel
