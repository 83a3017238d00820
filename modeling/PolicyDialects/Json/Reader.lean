import PolicyDialects.Json.Basic

/-!
# Reading JSON text

RFC 8259 to the letter: blanks are space, tab, line feed and carriage return;
no raw control characters in strings; no leading zeros; no trailing commas.

* `readString` — a string literal after its opening quote, through its
  `Piece`s, which `assemble` joins into a text unless a surrogate is unpaired.
* `readNumber` — the spelling of a number.
* `readValue` — a value inside at most a given number of brackets.
* `Json.read?` — a whole text; the length of the text bounds its brackets.
-/

namespace PolicyDialects.Json

open Text

/-! ## Blanks and words -/

/-- The four blanks of JSON. -/
def isJsonBlank (c : Char) : Bool := c == ' ' || c == '\t' || c == '\n' || c == '\r'

/-- The text after leading blanks. -/
def skipBlanks (cs : List Char) : List Char := cs.dropWhile isJsonBlank

/-- What follows a character, with blanks before it skipped. -/
def expect (c : Char) (cs : List Char) : Option (List Char) :=
  match skipBlanks cs with
  | d :: rest => if d = c then some rest else none
  | [] => none

/-! ## Strings -/

/-- A character of a string literal, or one half of a surrogate pair. -/
inductive Piece where
  | char (c : Char)
  | surrogate (code : Nat)

/-- The number of four hexadecimal digits. -/
def hex4? (a b c d : Char) : Option Nat := do
  let a ← hexValue? a
  let b ← hexValue? b
  let c ← hexValue? c
  let d ← hexValue? d
  return ((a * 16 + b) * 16 + c) * 16 + d

/-- The piece of a `\u` escape. -/
def pieceOfCode (code : Nat) : Piece :=
  if 0xD800 ≤ code ∧ code ≤ 0xDFFF then .surrogate code else .char (Char.ofNat code)

/-- The character of a one-letter escape. -/
def shortEscape? (c : Char) : Option Char :=
  if c = '"' ∨ c = '\\' ∨ c = '/' then some c
  else if c = 'b' then some (Char.ofNat 8)
  else if c = 'f' then some (Char.ofNat 12)
  else if c = 'n' then some '\n'
  else if c = 'r' then some '\r'
  else if c = 't' then some '\t'
  else none

/-- The pieces of a string literal after its opening quote, and what follows
the closing one. -/
def readPieces : List Char → Option (List Piece × List Char)
  | [] => none
  | '"' :: rest => some ([], rest)
  | '\\' :: 'u' :: a :: b :: c :: d :: rest =>
    match hex4? a b c d with
    | some code => (readPieces rest).map fun (ps, r) => (pieceOfCode code :: ps, r)
    | none => none
  | '\\' :: e :: rest =>
    match shortEscape? e with
    | some c => (readPieces rest).map fun (ps, r) => (.char c :: ps, r)
    | none => none
  | c :: rest =>
    if c = '\\' ∨ c.toNat < 0x20 then none
    else (readPieces rest).map fun (ps, r) => (.char c :: ps, r)

/-- The character of a high and a low surrogate. -/
def pairChar? (high low : Nat) : Option Char :=
  if high < 0xDC00 ∧ 0xDC00 ≤ low then
    some (Char.ofNat (0x10000 + (high - 0xD800) * 0x400 + (low - 0xDC00)))
  else none

/-- The text of the pieces, unless a surrogate has no partner. -/
def assemble : List Piece → Option (List Char)
  | [] => some []
  | .char c :: ps => (assemble ps).map (c :: ·)
  | .surrogate high :: .surrogate low :: ps =>
    match pairChar? high low with
    | some c => (assemble ps).map (c :: ·)
    | none => none
  | .surrogate _ :: _ => none

/-- A string literal after its opening quote. -/
def readString (cs : List Char) : Option (Option String × List Char) :=
  (readPieces cs).map fun (ps, rest) => ((assemble ps).map String.ofList, rest)

/-! ## Numbers -/

/-- The digits before the point: a single zero, or no zero in front. -/
def readWhole : List Char → Option (List Char × List Char)
  | '0' :: rest => some (['0'], rest)
  | cs =>
    if (cs.takeWhile isDigit).isEmpty then none
    else some (cs.takeWhile isDigit, cs.dropWhile isDigit)

/-- A mark followed by one or more digits, or nothing. -/
def readMarkedDigits (mark : List Char) (cs : List Char) : Option (List Char × List Char) :=
  if (cs.takeWhile isDigit).isEmpty then none
  else some (mark ++ cs.takeWhile isDigit, cs.dropWhile isDigit)

/-- The fraction, when there is a point. -/
def readFraction : List Char → Option (List Char × List Char)
  | '.' :: rest => readMarkedDigits ['.'] rest
  | cs => some ([], cs)

/-- The exponent, when there is an `e`. -/
def readExponent : List Char → Option (List Char × List Char)
  | [] => some ([], [])
  | c :: rest =>
    if c = 'e' ∨ c = 'E' then
      match rest with
      | '+' :: rest => readMarkedDigits [c, '+'] rest
      | '-' :: rest => readMarkedDigits [c, '-'] rest
      | rest => readMarkedDigits [c] rest
    else some ([], c :: rest)

/-- The spelling of a number. -/
def readNumber (cs : List Char) : Option (String × List Char) := do
  let (negative, cs) := takeMinus cs
  let (whole, cs) ← readWhole cs
  let (fraction, cs) ← readFraction cs
  let (exponent, cs) ← readExponent cs
  let sign := if negative then ['-'] else []
  return (String.ofList (sign ++ whole ++ fraction ++ exponent), cs)

/-! ## Values -/

/-- The items of a list after the first one, up to its closing bracket. -/
def readMore {α : Type} (close : Char) (item : List Char → Option (α × List Char))
    (cs : List Char) : Option (List α × List Char) :=
  match skipBlanks cs with
  | [] => none
  | c :: rest =>
    if c = close then some ([], rest)
    else if c = ',' then
      match item rest with
      | none => none
      | some (x, after) =>
        if after.length < cs.length then
          (readMore close item after).map fun (xs, r) => (x :: xs, r)
        else none
    else none
termination_by cs.length

/-- The items of a list after its opening bracket, up to its closing one. -/
def readList {α : Type} (close : Char) (item : List Char → Option (α × List Char))
    (cs : List Char) : Option (List α × List Char) :=
  match expect close cs with
  | some rest => some ([], rest)
  | none =>
    match item cs with
    | none => none
    | some (x, rest) => (readMore close item rest).map fun (xs, r) => (x :: xs, r)

/-- A key, a colon and a value. -/
def readMember (value : List Char → Option (Json × List Char)) (cs : List Char) :
    Option ((Option String × Json) × List Char) := do
  let cs ← expect '"' cs
  let (key, cs) ← readString cs
  let cs ← expect ':' cs
  let (v, cs) ← value cs
  return ((key, v), cs)

/-- A value with at most `levels` brackets around its innermost part. -/
def readValue : (levels : Nat) → List Char → Option (Json × List Char)
  | levels, cs =>
    match skipBlanks cs with
    | 'n' :: 'u' :: 'l' :: 'l' :: rest => some (.null, rest)
    | 't' :: 'r' :: 'u' :: 'e' :: rest => some (.bool true, rest)
    | 'f' :: 'a' :: 'l' :: 's' :: 'e' :: rest => some (.bool false, rest)
    | '"' :: rest => (readString rest).map fun (s, r) => (.string s, r)
    | '[' :: rest =>
      match levels with
      | 0 => none
      | n + 1 => (readList ']' (readValue n) rest).map fun (xs, r) => (.array xs, r)
    | '\x7b' :: rest =>
      match levels with
      | 0 => none
      | n + 1 =>
        (readList '\x7d' (readMember (readValue n)) rest).map fun (ms, r) => (.object ms, r)
    | cs => (readNumber cs).map fun (s, r) => (.number s, r)

/-- The value of a JSON text. -/
def read? (text : String) : Option Json :=
  let cs := text.toList
  match readValue cs.length cs with
  | some (value, rest) => if (skipBlanks rest).isEmpty then some value else none
  | none => none

end PolicyDialects.Json
