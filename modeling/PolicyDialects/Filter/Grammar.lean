import PolicyDialects.Filter.Expression
import PolicyDialects.Filter.Token

/-!
# The grammar of filters

Which sequences of tokens spell which expressions (specification, section 4.1),
keywords in any case:

    or   := and ("or" and)*
    and  := term ("and" term)*
    term := "not" term | "(" or ")" | path "[" or "]" | path "pr" | path op value

Both chains nest to the left. A path is any word but `and`, `or` and `not`.

* `SpellsValue` — values; only `in` takes a list.
* `SpellsTerm`, `SpellsAnd`, `SpellsOr` — expressions, by the strength of
  their outermost operator.
* `Expression.nesting` — how many terms enclose the innermost one, which the
  grammar leaves open and a reader bounds.
-/

namespace PolicyDialects.Filter

open Text

/-! ## Words -/

/-- Whether a word is `and` or `or`. Model of `is_logical_keyword`. -/
def isLogicalKeyword (w : String) : Bool := sameFold w "and" || sameFold w "or"

/-- Whether a word is a keyword and neither a path nor a value. -/
def isReserved (w : String) : Bool := isLogicalKeyword w || sameFold w "not"

/-! ## Values -/

/-- The value of a token that may be an item of a list. -/
def itemValue? : Token → Option Value
  | .literal s => some (.string s)
  | .word w => some (.ofWord w)
  | _ => none

/-- Items with commas between them. -/
inductive SpellsItems : List Token → List Value → Prop where
  | one {t : Token} {v : Value} (item : itemValue? t = some v) : SpellsItems [t] [v]
  | more {t : Token} {v : Value} {ts : List Token} {vs : List Value}
      (item : itemValue? t = some v) (rest : SpellsItems ts vs) :
      SpellsItems (t :: .comma :: ts) (v :: vs)

/-- The value after an operator. -/
inductive SpellsValue (op : CompareOperator) : List Token → Value → Prop where
  | literal (s : String) : SpellsValue op [.literal s] (.string s)
  | word {w : String} (free : isReserved w = false) : SpellsValue op [.word w] (.ofWord w)
  | noItems (membership : op = .in) :
      SpellsValue op [.leftBracket, .rightBracket] (.list [])
  | items {ts : List Token} {vs : List Value} (membership : op = .in)
      (inner : SpellsItems ts vs) :
      SpellsValue op (.leftBracket :: (ts ++ [.rightBracket])) (.list vs)

/-! ## Expressions -/

mutual

/-- One operand of `and`. -/
inductive SpellsTerm : List Token → Expression → Prop where
  | not {w : String} {ts : List Token} {e : Expression} (keyword : sameFold w "not" = true)
      (inner : SpellsTerm ts e) : SpellsTerm (.word w :: ts) (.not e)
  | group {ts : List Token} {e : Expression} (inner : SpellsOr ts e) :
      SpellsTerm (.leftParen :: (ts ++ [.rightParen])) (.group e)
  | valuePath {path : String} {ts : List Token} {e : Expression}
      (free : isReserved path = false) (inner : SpellsOr ts e) :
      SpellsTerm (.word path :: .leftBracket :: (ts ++ [.rightBracket])) (.valuePath path e)
  | present {path w : String} (free : isReserved path = false)
      (keyword : CompareOperator.ofKeyword? w = some .pr) :
      SpellsTerm [.word path, .word w] (.compare (.present path))
  | compare {path w : String} {op : CompareOperator} {ts : List Token} {v : Value}
      (free : isReserved path = false) (keyword : CompareOperator.ofKeyword? w = some op)
      (binary : op ≠ .pr) (value : SpellsValue op ts v) :
      SpellsTerm (.word path :: .word w :: ts) (.compare (.with path op v))

/-- Terms joined by `and`. -/
inductive SpellsAnd : List Token → Expression → Prop where
  | term {ts : List Token} {e : Expression} (inner : SpellsTerm ts e) : SpellsAnd ts e
  | and {ts us : List Token} {w : String} {left right : Expression}
      (first : SpellsAnd ts left) (keyword : sameFold w "and" = true)
      (last : SpellsTerm us right) :
      SpellsAnd (ts ++ .word w :: us) (.logical .and left right)

/-- Conjunctions joined by `or`. -/
inductive SpellsOr : List Token → Expression → Prop where
  | and {ts : List Token} {e : Expression} (inner : SpellsAnd ts e) : SpellsOr ts e
  | or {ts us : List Token} {w : String} {left right : Expression}
      (first : SpellsOr ts left) (keyword : sameFold w "or" = true)
      (last : SpellsAnd us right) :
      SpellsOr (ts ++ .word w :: us) (.logical .or left right)

end

/-- The greatest number of `not`s, parentheses and value paths around a term. -/
def Expression.nesting : Expression → Nat
  | .compare _ => 0
  | .logical _ left right => max left.nesting right.nesting
  | .not inner => inner.nesting + 1
  | .group inner => inner.nesting + 1
  | .valuePath _ filter => filter.nesting + 1

end PolicyDialects.Filter
