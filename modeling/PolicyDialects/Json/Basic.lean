import PolicyDialects.Binary64.Decimal
import PolicyDialects.Text.Search

/-!
# JSON values

A tree that keeps what a JSON text says: members in their order, duplicates
included, and numbers as they are spelled. A string literal may hold half of a
surrogate pair; it is then a value without a text (`string none`).

* `Json` — the tree.
* `Json.pretty` — two-space layout; `Json.compact` — one line.
* `Json.depth` — how deeply arrays and objects are nested.
* `Json.lastWins` — each object with one member per key, the last one given.
* `Json.isPlain` — every string has a text and every number is in range.
-/

namespace PolicyDialects

/-- A JSON value. -/
inductive Json where
  | null
  | bool (b : Bool)
  | number (spelling : String)
  | string (text : Option String)
  | array (items : List Json)
  | object (members : List (Option String × Json))
  deriving Inhabited

namespace Json

/-- The string value of a text. -/
def str (s : String) : Json := .string (some s)

/-- The number value of a natural number. -/
def nat (n : Nat) : Json := .number (String.ofList (Text.numeral n))

/-- The object with the given members. -/
def record (members : List (String × Json)) : Json :=
  .object (members.map fun (key, value) => (some key, value))

/-- The object with those of the given members that have a value. -/
def partialRecord (members : List (String × Option Json)) : Json :=
  .record (members.filterMap fun (key, value) => value.map fun v => (key, v))

/-- The array of strings. -/
def strings (items : List String) : Json := .array (items.map str)

/-! ## Writing -/

/-- The spelling of one character of a string literal. -/
def escapeChar (c : Char) : List Char :=
  if c = '"' then ['\\', '"']
  else if c = '\\' then ['\\', '\\']
  else if c.toNat = 8 then ['\\', 'b']
  else if c.toNat = 12 then ['\\', 'f']
  else if c = '\n' then ['\\', 'n']
  else if c = '\r' then ['\\', 'r']
  else if c = '\t' then ['\\', 't']
  else if c.toNat < 0x20 then
    ['\\', 'u', '0', '0', Text.hexDigit (c.toNat / 16), Text.hexDigit (c.toNat % 16)]
  else [c]

/-- The string literal of a text. -/
def literal (s : String) : List Char := '"' :: (s.toList.flatMap escapeChar ++ ['"'])

/-- The literal of a string value; half of a pair is written as U+D800. -/
def stringLiteral : Option String → List Char
  | some s => literal s
  | none => "\"\\ud800\"".toList

/-- A line break and the indentation of a level. -/
def newline (level : Nat) : List Char := '\n' :: List.replicate (2 * level) ' '

mutual

/-- The layout of a value whose first line is at `level`. -/
def prettyChars (level : Nat) : Json → List Char
  | .null => "null".toList
  | .bool b => (if b then "true" else "false").toList
  | .number s => s.toList
  | .string s => stringLiteral s
  | .array [] => ['[', ']']
  | .array (item :: items) =>
    '[' :: (newline (level + 1) ++ prettyChars (level + 1) item ++
      prettyItems (level + 1) items ++ newline level ++ [']'])
  | .object [] => ['\x7b', '\x7d']
  | .object (member :: members) =>
    '\x7b' :: (newline (level + 1) ++ prettyMember (level + 1) member ++
      prettyMembers (level + 1) members ++ newline level ++ ['\x7d'])

/-- The items after the first one. -/
def prettyItems (level : Nat) : List Json → List Char
  | [] => []
  | item :: items => ',' :: (newline level ++ prettyChars level item ++ prettyItems level items)

/-- One member of an object. -/
def prettyMember (level : Nat) : Option String × Json → List Char
  | (key, value) => stringLiteral key ++ ':' :: ' ' :: prettyChars level value

/-- The members after the first one. -/
def prettyMembers (level : Nat) : List (Option String × Json) → List Char
  | [] => []
  | member :: members =>
    ',' :: (newline level ++ prettyMember level member ++ prettyMembers level members)

end

/-- The text of a value with two spaces of indentation per level. -/
def pretty (j : Json) : String := String.ofList (prettyChars 0 j)

mutual

/-- The text of a value without white space. -/
def compactChars : Json → List Char
  | .null => "null".toList
  | .bool b => (if b then "true" else "false").toList
  | .number s => s.toList
  | .string s => stringLiteral s
  | .array items => '[' :: (compactItems items ++ [']'])
  | .object members => '\x7b' :: (compactMembers members ++ ['\x7d'])

/-- Items with commas between them. -/
def compactItems : List Json → List Char
  | [] => []
  | [item] => compactChars item
  | item :: next :: items => compactChars item ++ ',' :: compactItems (next :: items)

/-- One member of an object. -/
def compactMember : Option String × Json → List Char
  | (key, value) => stringLiteral key ++ ':' :: compactChars value

/-- Members with commas between them. -/
def compactMembers : List (Option String × Json) → List Char
  | [] => []
  | [member] => compactMember member
  | member :: next :: members => compactMember member ++ ',' :: compactMembers (next :: members)

end

/-- The text of a value on one line. -/
def compact (j : Json) : String := String.ofList (compactChars j)

/-! ## Shape -/

mutual

/-- The number of arrays and objects around the innermost value. -/
def depth : Json → Nat
  | .array items => depthItems items + 1
  | .object members => depthMembers members + 1
  | _ => 0

/-- The greatest depth among items. -/
def depthItems : List Json → Nat
  | [] => 0
  | item :: items => max (depth item) (depthItems items)

/-- The depth of a member's value. -/
def depthMember : Option String × Json → Nat
  | (_, value) => depth value

/-- The greatest depth among members. -/
def depthMembers : List (Option String × Json) → Nat
  | [] => 0
  | member :: members => max (depthMember member) (depthMembers members)

end

/-- Whether a spelled number is within the range of doubles. -/
def numberInRange (spelling : String) : Bool :=
  match Binary64.ofText? spelling.toList with
  | some (.finite _ _ _) => true
  | _ => false

mutual

/-- Every string and key has a text, and every number is in range. -/
def isPlain : Json → Bool
  | .null => true
  | .bool _ => true
  | .number s => numberInRange s
  | .string s => s.isSome
  | .array items => isPlainItems items
  | .object members => isPlainMembers members

/-- `isPlain` for all items. -/
def isPlainItems : List Json → Bool
  | [] => true
  | item :: items => isPlain item && isPlainItems items

/-- `isPlain` for a member. -/
def isPlainMember : Option String × Json → Bool
  | (key, value) => key.isSome && isPlain value

/-- `isPlain` for all members. -/
def isPlainMembers : List (Option String × Json) → Bool
  | [] => true
  | member :: members => isPlainMember member && isPlainMembers members

end

/-- The members without those whose key is given again later. -/
def dropOverridden {α : Type} : List (Option String × α) → List (Option String × α)
  | [] => []
  | (key, value) :: members =>
    if members.any fun (later, _) => later == key then dropOverridden members
    else (key, value) :: dropOverridden members

mutual

/-- The value with one member per key in each object, the last one given. -/
def lastWins : Json → Json
  | .array items => .array (lastWinsItems items)
  | .object members => .object (dropOverridden (lastWinsMembers members))
  | j => j

/-- `lastWins` for all items. -/
def lastWinsItems : List Json → List Json
  | [] => []
  | item :: items => lastWins item :: lastWinsItems items

/-- `lastWins` for a member's value. -/
def lastWinsMember : Option String × Json → Option String × Json
  | (key, value) => (key, lastWins value)

/-- `lastWins` for all members. -/
def lastWinsMembers : List (Option String × Json) → List (Option String × Json)
  | [] => []
  | member :: members => lastWinsMember member :: lastWinsMembers members

end

/-- The member of an object with the given key. -/
def get? (key : String) : Json → Option Json
  | .object members => (members.find? fun (k, _) => k == some key).map (·.2)
  | _ => none

end Json

end PolicyDialects
