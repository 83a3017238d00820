import PolicyDialects.Text.Chars

/-!
# Tokens of CEL

The lexemes of `cel-parser`, version 0.7. At each place the longest one wins.
White space and comments, which run from `//` through the line breaks after
them, lie between lexemes.

* `Symbol` — punctuation, operators and reserved words, with their spelling.
* `Token`, `Lexeme` — what a piece of text is, and where it stands.
* `Ending` — how the sequence of lexemes stops: at the end of the text or at a
  character that starts no lexeme.
* `lexemes` — all lexemes of a text.
-/

namespace PolicyDialects.Cel

open Text

/-- Punctuation, operators and reserved words. -/
inductive Symbol where
  | question | colon | orOr | andAnd | plus | minus | star | slash | percent
  | bang | bangBang | minusMinus
  | less | lessEquals | greater | greaterEquals | equalsEquals | bangEquals | in
  | dot | comma | leftParen | rightParen | leftBracket | rightBracket | leftBrace | rightBrace
  | true | false | null
  deriving DecidableEq, Inhabited

namespace Symbol

/-- How a symbol is spelled. -/
def spelling : Symbol → List Char
  | .question => ['?']
  | .colon => [':']
  | .orOr => ['|', '|']
  | .andAnd => ['&', '&']
  | .plus => ['+']
  | .minus => ['-']
  | .star => ['*']
  | .slash => ['/']
  | .percent => ['%']
  | .bang => ['!']
  | .bangBang => ['!', '!']
  | .minusMinus => ['-', '-']
  | .less => ['<']
  | .lessEquals => ['<', '=']
  | .greater => ['>']
  | .greaterEquals => ['>', '=']
  | .equalsEquals => ['=', '=']
  | .bangEquals => ['!', '=']
  | .in => ['i', 'n']
  | .dot => ['.']
  | .comma => [',']
  | .leftParen => ['(']
  | .rightParen => [')']
  | .leftBracket => ['[']
  | .rightBracket => [']']
  | .leftBrace => ['\x7b']
  | .rightBrace => ['\x7d']
  | .true => ['t', 'r', 'u', 'e']
  | .false => ['f', 'a', 'l', 's', 'e']
  | .null => ['n', 'u', 'l', 'l']

/-- The reserved words. -/
def words : List Symbol := [.in, .true, .false, .null]

/-- Punctuation and operators, a longer one before any that it starts with. -/
def marks : List Symbol :=
  [.orOr, .andAnd, .bangBang, .bangEquals, .minusMinus, .lessEquals, .greaterEquals,
    .equalsEquals, .question, .colon, .plus, .minus, .star, .slash, .percent, .bang, .less,
    .greater, .dot, .comma, .leftParen, .rightParen, .leftBracket, .rightBracket, .leftBrace,
    .rightBrace]

/-- Symbols that may stand after an operand somewhere. -/
def followsOperand : Symbol → Bool
  | .bang | .bangBang | .minusMinus | .leftParen | .true | .false | .null => Bool.false
  | _ => Bool.true

end Symbol

/-- Kinds of literals that carry their value in their spelling. -/
inductive LiteralKind where
  | int
  | hex
  | unsigned
  | float
  | string
  | rawString
  | bytes
  deriving DecidableEq, Inhabited

/-- What a lexeme is. -/
inductive Token where
  | symbol (s : Symbol)
  | ident
  | literal (kind : LiteralKind)
  deriving DecidableEq, Inhabited

/-- A token, its text, and the byte offsets at which it starts and ends. -/
structure Lexeme where
  token : Token
  text : List Char
  start : Nat
  finish : Nat
  deriving DecidableEq, Inhabited

/-- How the lexemes of a text stop. -/
inductive Ending where
  /-- The text ends; `finish` is the end of the last lexeme. -/
  | complete (finish : Nat)
  /-- No lexeme starts at `offset`. -/
  | invalid (offset : Nat)
  deriving DecidableEq, Inhabited

/-! ## Lexical shapes

Each function gives the number of characters of the longest piece of its shape
at the start of a text, and zero when there is none. -/

/-- The number of leading characters in a class. -/
def run (p : Char → Bool) (cs : List Char) : Nat := (cs.takeWhile p).length

/-- The number of characters of an optional minus sign. -/
def minusLength : List Char → Nat
  | '-' :: _ => 1
  | _ => 0

/-- The number of characters of an optional sign. -/
def signLength : List Char → Nat
  | '-' :: _ => 1
  | '+' :: _ => 1
  | _ => 0

/-- An optional minus sign and digits. -/
def intLength (cs : List Char) : Nat :=
  let sign := minusLength cs
  let digits := run isDigit (cs.drop sign)
  if digits = 0 then 0 else sign + digits

/-- Whether a character is a hexadecimal digit. -/
def isHexDigit (c : Char) : Bool := (hexValue? c).isSome

/-- An optional minus sign, `0x` and hexadecimal digits. -/
def hexLength (cs : List Char) : Nat :=
  let sign := minusLength cs
  match cs.drop sign with
  | '0' :: x :: rest =>
    let digits := run isHexDigit rest
    if (x = 'x' ∨ x = 'X') ∧ digits ≠ 0 then sign + 2 + digits else 0
  | _ => 0

/-- A number of the given length, one space and a `u`. -/
def unsignedLength (number : Nat) (cs : List Char) : Nat :=
  match cs.drop number with
  | ' ' :: u :: _ => if number ≠ 0 ∧ (u = 'u' ∨ u = 'U') then number + 2 else 0
  | _ => 0

/-- An `e`, an optional sign and digits. -/
def exponentLength : List Char → Nat
  | c :: cs =>
    let sign := signLength cs
    let digits := run isDigit (cs.drop sign)
    if (c = 'e' ∨ c = 'E') ∧ digits ≠ 0 then 1 + sign + digits else 0
  | [] => 0

/-- An optional sign and digits with a point before the last of them and
perhaps an exponent, or with an exponent. -/
def floatLength (cs : List Char) : Nat :=
  let sign := signLength cs
  let whole := run isDigit (cs.drop sign)
  match cs.drop (sign + whole) with
  | '.' :: rest =>
    let fraction := run isDigit rest
    if fraction = 0 then 0
    else sign + whole + 1 + fraction + exponentLength (rest.drop fraction)
  | rest =>
    let exponent := exponentLength rest
    if whole = 0 ∨ exponent = 0 then 0 else sign + whole + exponent

/-- The text up to the closing quote, a backslash hiding the character after
it, which is not a line feed. The count includes the closing quote. -/
def stringLength (quote : Char) : List Char → Nat
  | [] => 0
  | ['\\'] => 0
  | '\\' :: c :: rest =>
    if c = '\n' then 0
    else
      match stringLength quote rest with
      | 0 => 0
      | n + 1 => n + 3
  | c :: rest =>
    if c = quote then 1
    else
      match stringLength quote rest with
      | 0 => 0
      | n + 1 => n + 2

/-- The longest text on one line up to a closing quote, where a backslash may
hide the quote after it; `hidden` says that the next quote has one before it,
`count` characters are read, and `best` is the length found so far. -/
def bytesLengthFrom (quote : Char) (hidden : Bool) (count best : Nat) : List Char → Nat
  | [] => best
  | c :: rest =>
    if c = '\n' then best
    else if c = quote then
      if hidden then bytesLengthFrom quote false (count + 1) (count + 1) rest else count + 1
    else bytesLengthFrom quote (c == '\\') (count + 1) best rest

/-- The longest bytes literal after its opening quote. -/
def bytesLength (quote : Char) (cs : List Char) : Nat := bytesLengthFrom quote false 0 0 cs

/-- A quoted literal of a shape, with its opening quote. -/
def quotedLength (shape : Char → List Char → Nat) : List Char → Nat
  | q :: rest =>
    let n := shape q rest
    if (q = '"' ∨ q = '\'') ∧ n ≠ 0 then n + 1 else 0
  | [] => 0

/-- A letter or underscore, and letters, underscores and digits. -/
def identLength : List Char → Nat
  | c :: cs => if isIdentStart c then 1 + run isIdentPart cs else 0
  | [] => 0

/-- A comment: two slashes, the rest of the line, and the line breaks there. -/
def commentLength : List Char → Nat
  | '/' :: '/' :: rest =>
    let line := run (fun c => c != '\n' && c != '\r') rest
    2 + line + run (fun c => c == '\n' || c == '\r') (rest.drop line)
  | _ => 0

/-! ## Lexemes -/

/-- A literal that starts with one of two letters, before its quote. -/
def letteredLength (small capital : Char) (shape : Char → List Char → Nat) :
    List Char → Nat
  | c :: rest =>
    let n := quotedLength shape rest
    if (c = small ∨ c = capital) ∧ n ≠ 0 then n + 1 else 0
  | [] => 0

/-- The symbol at the start of a text. -/
def symbolAt? (cs : List Char) : Option Symbol :=
  Symbol.marks.find? fun s => s.spelling.isPrefixOf cs

/-- The shapes of lexemes with the lengths they have at the start of a text. -/
def shapes (cs : List Char) : List (Token × Nat) :=
  [ (.literal .int, intLength cs),
    (.literal .hex, hexLength cs),
    (.literal .unsigned, unsignedLength (intLength cs) cs),
    (.literal .unsigned, unsignedLength (hexLength cs) cs),
    (.literal .float, floatLength cs),
    (.literal .string, quotedLength stringLength cs),
    (.literal .rawString, letteredLength 'r' 'R' stringLength cs),
    (.literal .bytes, letteredLength 'b' 'B' bytesLength cs),
    (.ident, identLength cs) ]

/-- The longest shape, the later of two that are as long. -/
def longest (shapes : List (Token × Nat)) : Token × Nat :=
  shapes.foldl (fun best s => if best.2 ≤ s.2 then s else best) (.ident, 0)

/-- The token at the start of a text and its number of characters, zero when
there is none. A symbol wins over a shape of its own length. -/
def tokenAt (cs : List Char) : Token × Nat :=
  let (token, length) := longest (shapes cs)
  match Symbol.words.find? fun s => token = .ident ∧ s.spelling = cs.take length with
  | some word => (.symbol word, length)
  | none =>
    match symbolAt? cs with
    | some s =>
      if length ≤ s.spelling.length then (.symbol s, s.spelling.length) else (token, length)
    | none => (token, length)

/-- The lexemes of a text that starts at `offset`, when the last lexeme before
it ends at `last`. -/
def lexemesFrom (offset last : Nat) (cs : List Char) : List Lexeme × Ending :=
  match cs with
  | [] => ([], .complete last)
  | c :: rest =>
    let blanks := run isBlank (c :: rest)
    let comment := commentLength (c :: rest)
    if comment ≠ 0 then
      lexemesFrom (offset + byteLength ((c :: rest).take comment)) last
        (rest.drop (comment - 1))
    else if blanks ≠ 0 then
      lexemesFrom (offset + byteLength ((c :: rest).take blanks)) last (rest.drop (blanks - 1))
    else
      let (token, length) := tokenAt (c :: rest)
      if length = 0 then ([], .invalid offset)
      else
        let text := (c :: rest).take length
        let finish := offset + byteLength text
        let (more, ending) := lexemesFrom finish finish (rest.drop (length - 1))
        (⟨token, text, offset, finish⟩ :: more, ending)
termination_by cs.length
decreasing_by all_goals simp +arith

/-- The lexemes of a text. -/
def lexemes (text : List Char) : List Lexeme × Ending := lexemesFrom 0 0 text

end PolicyDialects.Cel
