import PolicyDialects.Cel.Token
import PolicyDialects.Cel.Tree

/-!
# Values of CEL literals

A literal has no value when it is an integer out of the 64-bit range, an
unsigned or hexadecimal number, or has an escape that its kind does not know.

* `escapedString?` — quoted strings, `rawString` — raw ones.
* `escapedBytes?` — bytes, characters standing for their UTF-8 encoding.
* `literalValue?` — the value of a literal of any kind.
-/

namespace PolicyDialects.Cel

open Text

/-! ## Numbers in escapes -/

/-- The number spelled by hexadecimal digits after an optional plus sign. -/
def hexNumber? (cs : List Char) : Option Nat :=
  let digits := match cs with
    | '+' :: rest => rest
    | cs => cs
  if digits.isEmpty then none
  else digits.foldlM (fun n c => (hexValue? c).map (16 * n + ·)) 0

/-- The value of an octal digit. -/
def octalValue? (c : Char) : Option Nat :=
  if '0' ≤ c ∧ c ≤ '7' then some (c.toNat - '0'.toNat) else none

/-- The number spelled by a digit from 0 to 3 and two octal digits. -/
def octalNumber? (a b c : Char) : Option Nat := do
  let a ← octalValue? a
  let b ← octalValue? b
  let c ← octalValue? c
  if a ≤ 3 then some ((a * 8 + b) * 8 + c) else none

/-! ## Strings -/

/-- The character of an escape that stands for itself or a control character. -/
def simpleEscape? (c : Char) : Option Char :=
  if c = 'a' then some (Char.ofNat 7)
  else if c = 'b' then some (Char.ofNat 8)
  else if c = 'v' then some (Char.ofNat 11)
  else if c = 'f' then some (Char.ofNat 12)
  else if c = 'n' then some '\n'
  else if c = 'r' then some '\r'
  else if c = 't' then some '\t'
  else if c = '\\' ∨ c = '?' ∨ c = '`' then some c
  else none

/-- The number of hexadecimal digits after the letter of an escape. -/
def codeLength? (c : Char) : Option Nat :=
  if c = 'x' then some 2
  else if c = 'u' then some 4
  else if c = 'U' then some 8
  else none

/-- The text of a string between its quotes. An escaped quote of the other
kind keeps its backslash. -/
def escapedString? (quote : Char) : List Char → Option (List Char)
  | [] => some []
  | '\\' :: c :: rest =>
    if c = quote then (escapedString? quote rest).map (c :: ·)
    else if c = '"' ∨ c = '\'' then (escapedString? quote rest).map ('\\' :: c :: ·)
    else
      match simpleEscape? c, codeLength? c with
      | some char, _ => (escapedString? quote rest).map (char :: ·)
      | none, some n =>
        if rest.length < n then none
        else
          match hexNumber? (rest.take n) >>= charOfCode? with
          | some char => (escapedString? quote (rest.drop n)).map (char :: ·)
          | none => none
      | none, none =>
        match rest with
        | d :: e :: rest =>
          match octalNumber? c d e >>= charOfCode? with
          | some char => (escapedString? quote rest).map (char :: ·)
          | none => none
        | _ => none
  | c :: rest => if c = '\\' then none else (escapedString? quote rest).map (c :: ·)
termination_by cs => cs.length
decreasing_by all_goals simp +arith

/-- The text of a raw string between its quotes, where a backslash is dropped
only before the kind of quote that delimits it. -/
def rawString (quote : Char) : List Char → List Char
  | [] => []
  | '\\' :: c :: rest =>
    if c = quote then c :: rawString quote rest else '\\' :: c :: rawString quote rest
  | c :: rest => c :: rawString quote rest

/-! ## Bytes -/

/-- The UTF-8 encoding of a character. -/
def utf8 (c : Char) : List UInt8 := String.utf8EncodeChar c

/-- The bytes of a bytes literal between its quotes. -/
def escapedBytes? : List Char → Option (List UInt8)
  | [] => some []
  | '\\' :: c :: d :: e :: rest =>
    let byte? := if c = 'x' then hexNumber? [d, e] else octalNumber? c d e
    match byte? with
    | some n => (escapedBytes? rest).map (n.toUInt8 :: ·)
    | none => none
  | c :: rest => if c = '\\' then none else (escapedBytes? rest).map (utf8 c ++ ·)

/-! ## Literals -/

/-- The first character of a quoted literal and the text between its quotes. -/
def unquoted (cs : List Char) : Char × List Char :=
  (cs.headD '"', (cs.drop 1).dropLast)

/-- The value of a literal. -/
def literalValue? (kind : LiteralKind) (text : List Char) : Option Constant :=
  match kind with
  | .int => (int64? text).map .int
  | .hex => none
  | .unsigned => none
  | .float => (Binary64.ofText? text).map .float
  | .string =>
    let (quote, body) := unquoted text
    (escapedString? quote body).map (.string <| String.ofList ·)
  | .rawString =>
    let (quote, body) := unquoted (text.drop 1)
    some (.string (String.ofList (rawString quote body)))
  | .bytes => (escapedBytes? (unquoted (text.drop 1)).2).map .bytes

end PolicyDialects.Cel
