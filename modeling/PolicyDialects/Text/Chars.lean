/-!
# Character classes and lengths

The character classes that every text format of the library shares, and the
length of a text in UTF-8 bytes, in which all positions are counted.

* `isBlank` — Unicode white space; `trim` drops it at both ends.
* `isControl` — the control characters of general category Cc.
* `charOfCode?` — the character that a `\u` escape numbers.
* `foldCase`, `sameFold` — comparison up to the case of ASCII letters.
* `byteLength` — UTF-8 length; `byteLength_append` makes offsets additive.
-/

namespace PolicyDialects.Text

/-! ## Classes -/

/-- White space: the characters with the Unicode property `White_Space`. -/
def isBlank (c : Char) : Bool :=
  let n := c.toNat
  (9 ≤ n && n ≤ 13) || n == 0x20 || n == 0x85 || n == 0xA0 || n == 0x1680 ||
    (0x2000 ≤ n && n ≤ 0x200A) || n == 0x2028 || n == 0x2029 || n == 0x202F ||
    n == 0x205F || n == 0x3000

/-- Control characters: U+0000 to U+001F and U+007F to U+009F. -/
def isControl (c : Char) : Bool :=
  let n := c.toNat
  n < 0x20 || (0x7F ≤ n && n ≤ 0x9F)

/-- ASCII decimal digits. -/
def isDigit (c : Char) : Bool := '0' ≤ c && c ≤ '9'

/-- ASCII letters. -/
def isLetter (c : Char) : Bool := ('a' ≤ c && c ≤ 'z') || ('A' ≤ c && c ≤ 'Z')

/-- Characters that may start an identifier: ASCII letters and the underscore. -/
def isIdentStart (c : Char) : Bool := isLetter c || c == '_'

/-- Characters that may continue an identifier. -/
def isIdentPart (c : Char) : Bool := isIdentStart c || isDigit c

/-- The value of a hexadecimal digit in either case. -/
def hexValue? (c : Char) : Option Nat :=
  if '0' ≤ c ∧ c ≤ '9' then some (c.toNat - '0'.toNat)
  else if 'a' ≤ c ∧ c ≤ 'f' then some (c.toNat - 'a'.toNat + 10)
  else if 'A' ≤ c ∧ c ≤ 'F' then some (c.toNat - 'A'.toNat + 10)
  else none

/-- The lower-case hexadecimal digit of a number below sixteen. -/
def hexDigit (n : Nat) : Char :=
  if n < 10 then Char.ofNat ('0'.toNat + n) else Char.ofNat ('a'.toNat + (n - 10))

/-- The character with a given code point, unless that is a surrogate or too
large. -/
def charOfCode? (code : Nat) : Option Char :=
  if h : code.isValidChar then some (Char.ofNatAux code h) else none

@[simp] theorem charOfCode?_toNat (c : Char) : charOfCode? c.toNat = some c := by
  have hvalid : c.toNat.isValidChar := c.valid
  rw [charOfCode?, dif_pos hvalid]
  rfl

/-- What all characters of a text have is decided along the text, never by a
run over all characters there are. -/
instance decidableEachChar (p : Char → Prop) [DecidablePred p] (cs : List Char) :
    Decidable (∀ c ∈ cs, p c) :=
  List.decidableBAll p cs

/-! ## Case -/

/-- The text with ASCII capitals made small. -/
def foldCase (cs : List Char) : List Char := cs.map Char.toLower

/-- Equality up to the case of ASCII letters. -/
def sameFold (a b : String) : Bool := foldCase a.toList == foldCase b.toList

/-! ## Lengths and ends -/

/-- Length in UTF-8 bytes. -/
def byteLength : List Char → Nat
  | [] => 0
  | c :: cs => c.utf8Size + byteLength cs

@[simp] theorem byteLength_nil : byteLength [] = 0 := rfl

@[simp] theorem byteLength_cons (c : Char) (cs : List Char) :
    byteLength (c :: cs) = c.utf8Size + byteLength cs := rfl

@[simp] theorem byteLength_append (a b : List Char) :
    byteLength (a ++ b) = byteLength a + byteLength b := by
  induction a with
  | nil => simp
  | cons c cs ih => simp [ih, Nat.add_assoc]

/-- The first `n` bytes of the text, or all of it when it is shorter; `none`
when the cut would split a character. -/
def takeBytes : (n : Nat) → List Char → Option (List Char)
  | _, [] => some []
  | n, c :: cs =>
    if n = 0 then some []
    else if c.utf8Size ≤ n then (takeBytes (n - c.utf8Size) cs).map (c :: ·)
    else none

/-- The text without white space at its ends. -/
def trim (cs : List Char) : List Char :=
  ((cs.dropWhile isBlank).reverse.dropWhile isBlank).reverse

/-- `trim` on strings. -/
def trimmed (s : String) : String := String.ofList (trim s.toList)

end PolicyDialects.Text
