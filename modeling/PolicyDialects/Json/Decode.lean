import PolicyDialects.Json.Reader

/-!
# Decoding JSON values

A decoder gives the value that a JSON tree stands for, or nothing.

* `text?`, `list?`, `flag?`, `word64?` — the basic shapes.
* `Slot` — what a record holds for one field; `required`, `defaulted`,
  `optional` and `nullable` say what its absence means.
* `fields?` — the slots of a record, which is an object with its fields as
  members (others are ignored, none given twice) or an array with its fields
  in order, possibly cut short.
* `choice?` — a tagged alternative: an object with one member.
* `unit?` — an alternative without content: its name, alone or tagging null.
-/

namespace PolicyDialects.Json

/-! ## Basic shapes -/

/-- A string with a text. -/
def text? : Json → Option String
  | .string s => s
  | _ => none

/-- An array, item by item. -/
def list? {α : Type} (item : Json → Option α) : Json → Option (List α)
  | .array items => items.mapM item
  | _ => none

/-- A Boolean. -/
def flag? : Json → Option Bool
  | .bool b => some b
  | _ => none

/-- A natural number of at most 64 bits, spelled with digits alone. -/
def word64? : Json → Option Nat
  | .number s =>
    let n := Text.numeralValue s.toList
    if Text.isNumeral s.toList ∧ n < UInt64.size then some n else none
  | _ => none

/-! ## Records -/

/-- What a record holds for a field: a value, no member of that name in an
object, or no place for it in an array that is too short. -/
inductive Slot where
  | given (value : Json)
  | absent
  | cutOff

namespace Slot

/-- A field that must be there. -/
def required {α : Type} (decode : Json → Option α) : Slot → Option α
  | .given v => decode v
  | _ => none

/-- A field with a default for when it is missing. -/
def defaulted {α : Type} (fallback : α) (decode : Json → Option α) : Slot → Option α
  | .given v => decode v
  | _ => some fallback

/-- A field that may be missing or null. -/
def optional {α : Type} (decode : Json → Option α) : Slot → Option (Option α)
  | .given .null => some none
  | .given v => (decode v).map some
  | _ => some none

/-- A field that may be missing from an object or null, but has its place in
an array. -/
def nullable {α : Type} (decode : Json → Option α) : Slot → Option (Option α)
  | .given .null => some none
  | .given v => (decode v).map some
  | .absent => some none
  | .cutOff => none

end Slot

/-- The slot of an object for a field. -/
def memberSlot (members : List (Option String × Json)) (name : String) : Slot :=
  match (members.find? fun (key, _) => key == some name).map (·.2) with
  | some value => .given value
  | none => .absent

/-- The slots of an array for a number of fields. -/
def itemSlots : Nat → List Json → List Slot
  | 0, _ => []
  | n + 1, [] => .cutOff :: itemSlots n []
  | n + 1, item :: items => .given item :: itemSlots n items

/-- The slots of a record for its fields, in the order of their names. -/
def fields? (names : List String) : Json → Option (List Slot)
  | .object members =>
    let keys := members.map (·.1)
    if keys.all Option.isSome ∧ names.all (fun name => keys.count (some name) ≤ 1) then
      some (names.map (memberSlot members))
    else none
  | .array items =>
    if items.length ≤ names.length then some (itemSlots names.length items) else none
  | _ => none

/-- `fields?` when the record must be written as an object. -/
def objectFields? (names : List String) : Json → Option (List Slot)
  | .object members => fields? names (.object members)
  | _ => none

/-! ## Alternatives -/

/-- The tag and content of an object with one member. -/
def choice? : Json → Option (String × Json)
  | .object [(some tag, content)] => some (tag, content)
  | _ => none

/-- The name of an alternative without content. -/
def unit? : Json → Option String
  | .string s => s
  | .object [(some tag, .null)] => some tag
  | _ => none

end PolicyDialects.Json
