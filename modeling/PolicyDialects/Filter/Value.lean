import PolicyDialects.Binary64.Decimal
import PolicyDialects.Text.Quoted
import PolicyDialects.Text.Search

/-!
# Comparison values

The right-hand side of a comparison: a string, a 64-bit integer, a double, a
Boolean, or a list of values.

* `Value` — the values, with decidable equality.
* `Value.ofWord` — the value of an unquoted word: `true` and `false` in any
  case, integers and decimal numbers keep their type, and any other word is a
  string.
* `Value.text` — the canonical spelling.
-/

namespace PolicyDialects.Filter

open Text

/-- A constant that an attribute is compared with. Model of `Value`. -/
inductive Value where
  | string (s : String)
  | integer (i : Int64)
  | float (x : Binary64)
  | boolean (b : Bool)
  | list (items : List Value)
  deriving Inhabited

namespace Value

/-! ## Equality -/

mutual

/-- Decides equality of values. -/
def decEq : (v w : Value) → Decidable (v = w)
  | .string s, .string t => decidable_of_iff (s = t) (by simp)
  | .integer i, .integer j => decidable_of_iff (i = j) (by simp)
  | .float x, .float y => decidable_of_iff (x = y) (by simp)
  | .boolean a, .boolean b => decidable_of_iff (a = b) (by simp)
  | .list xs, .list ys =>
    match decEqList xs ys with
    | isTrue h => isTrue (by rw [h])
    | isFalse h => isFalse fun e => h (Value.list.inj e)
  | .string _, .integer _ | .string _, .float _ | .string _, .boolean _ | .string _, .list _
  | .integer _, .string _ | .integer _, .float _ | .integer _, .boolean _ | .integer _, .list _
  | .float _, .string _ | .float _, .integer _ | .float _, .boolean _ | .float _, .list _
  | .boolean _, .string _ | .boolean _, .integer _ | .boolean _, .float _ | .boolean _, .list _
  | .list _, .string _ | .list _, .integer _ | .list _, .float _ | .list _, .boolean _ =>
    isFalse (by simp)

/-- Decides equality of lists of values. -/
def decEqList : (xs ys : List Value) → Decidable (xs = ys)
  | [], [] => isTrue rfl
  | [], _ :: _ => isFalse (by simp)
  | _ :: _, [] => isFalse (by simp)
  | x :: xs, y :: ys =>
    match decEq x y, decEqList xs ys with
    | isTrue h, isTrue h' => isTrue (by rw [h, h'])
    | isFalse h, _ => isFalse fun e => h (List.cons.inj e).1
    | _, isFalse h => isFalse fun e => h (List.cons.inj e).2

end

instance : DecidableEq Value := decEq

/-! ## Unquoted words -/

/-- An optional minus sign and digits. The pattern `INTEGER`. -/
def isIntegerWord (cs : List Char) : Bool := isNumeral (takeMinus cs).2

/-- An exponent: `e`, an optional sign, and digits. -/
def isExponent : List Char → Bool
  | c :: cs => (c == 'e' || c == 'E') && isNumeral (Binary64.takeSign cs).2
  | [] => false

/-- An optional minus sign, digits, and a fraction or an exponent or both. The
pattern `FLOAT`. -/
def isFloatWord (cs : List Char) : Bool :=
  let body := (takeMinus cs).2
  let rest := body.dropWhile isDigit
  !(body.takeWhile isDigit).isEmpty &&
    match rest with
    | '.' :: rest =>
      !(rest.takeWhile isDigit).isEmpty &&
        (let tail := rest.dropWhile isDigit
         tail.isEmpty || isExponent tail)
    | rest => isExponent rest

/-- The value of an unquoted word. An integer out of range is a string. Model of
`Value.from_bare_word`. -/
def ofWord (word : String) : Value :=
  let cs := word.toList
  if sameFold word "true" then .boolean true
  else if sameFold word "false" then .boolean false
  else if isIntegerWord cs then
    match int64? cs with
    | some i => .integer i
    | none => .string word
  else if isFloatWord cs then
    match Binary64.ofText? cs with
    | some x => .float x
    | none => .string word
  else .string word

/-- The text of a string value. Model of `Value.as_str`. -/
def string? : Value → Option String
  | .string s => some s
  | _ => none

/-! ## Spelling -/

mutual

/-- The canonical spelling of a value. Model of `Value.fmt`. -/
def text : Value → String
  | .string s => quote s
  | .integer i => String.ofList (intNumeral i.toInt)
  | .float x => x.text
  | .boolean b => if b then "true" else "false"
  | .list items => "[" ++ ", ".intercalate (texts items) ++ "]"

/-- The canonical spellings of the values of a list. -/
def texts : List Value → List String
  | [] => []
  | item :: items => text item :: texts items

end

end Value

end PolicyDialects.Filter
