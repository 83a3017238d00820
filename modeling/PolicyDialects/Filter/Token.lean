import PolicyDialects.Error
import PolicyDialects.Text.Quoted

/-!
# Tokens of filter text

Brackets, commas, string literals, and words, which reach up to white space or
one of `( ) [ ] " ,`.

* `Token`, `Placed` — a token, and a token with the byte offset of its start.
* `readLiteral` — a string literal after its opening quote.
* `tokenize` — all tokens of a text.
-/

namespace PolicyDialects.Filter

open Text

/-- A token of filter text. Model of `TokenKind`. -/
inductive Token where
  | leftParen
  | rightParen
  | leftBracket
  | rightBracket
  | comma
  | word (w : String)
  | literal (s : String)
  deriving DecidableEq, Inhabited

/-- The spelling of a token; that of a literal is its canonical one. Model of
`Token.lexeme`. -/
def Token.lexeme : Token → String
  | .leftParen => "("
  | .rightParen => ")"
  | .leftBracket => "["
  | .rightBracket => "]"
  | .comma => ","
  | .word w => w
  | .literal s => quote s

/-- Whether a token is a given keyword in any case. Model of
`Token.is_keyword`. -/
def Token.isKeyword (keyword : String) : Token → Bool
  | .word w => sameFold w keyword
  | _ => false

/-- A token and the byte offset of its first character. Model of `Token`. -/
structure Placed where
  token : Token
  offset : Nat
  deriving DecidableEq, Inhabited

/-- Characters that end a word. Model of `is_delimiter`. -/
def isDelimiter (c : Char) : Bool :=
  isBlank c || c == '(' || c == ')' || c == '[' || c == ']' || c == '"' || c == ','

/-! ## String literals -/

/-- What went wrong inside a string literal; `badUnicode` and `badEscape` hold
the text from the backslash on. -/
inductive LiteralFault where
  | unterminated
  | badUnicode (text : List Char)
  | badEscape (text : List Char)

/-- The character of a one-letter escape. -/
def escaped? (c : Char) : Option Char :=
  if c = '"' ∨ c = '\\' ∨ c = '/' then some c
  else if c = 'n' then some '\n'
  else if c = 'r' then some '\r'
  else if c = 't' then some '\t'
  else if c = 'b' then some (Char.ofNat 8)
  else if c = 'f' then some (Char.ofNat 12)
  else none

/-- The character numbered by four hexadecimal digits. Model of
`read_unicode_escape`. -/
def unicode? (a b c d : Char) : Option Char := Json.hex4? a b c d >>= charOfCode?

/-- The text of a string literal after its opening quote, and what follows its
closing one. Model of `read_string`. -/
def readLiteral : List Char → Except LiteralFault (List Char × List Char)
  | [] => .error .unterminated
  | ['\\'] => .error .unterminated
  | '"' :: rest => .ok ([], rest)
  | '\\' :: 'u' :: a :: b :: c :: d :: rest =>
    match unicode? a b c d with
    | some char => (readLiteral rest).map fun (cs, r) => (char :: cs, r)
    | none => .error (.badUnicode ('\\' :: 'u' :: a :: b :: c :: d :: rest))
  | '\\' :: e :: rest =>
    if e = 'u' then .error (.badUnicode ('\\' :: e :: rest))
    else
      match escaped? e with
      | some char => (readLiteral rest).map fun (cs, r) => (char :: cs, r)
      | none => .error (.badEscape ('\\' :: e :: rest))
  | c :: rest => (readLiteral rest).map fun (cs, r) => (c :: cs, r)

theorem length_of_readLiteral {cs s rest : List Char} (h : readLiteral cs = .ok (s, rest)) :
    rest.length < cs.length := by
  fun_induction readLiteral cs generalizing s with
  | case1 | case2 | case5 | case6 | case8 => simp at h
  | case3 => simp_all
  | case4 _ _ _ _ tail _ _ ih | case7 _ tail _ _ _ _ ih | case9 _ tail _ _ _ _ ih =>
    cases hr : readLiteral tail with
    | error e => simp [hr, Except.map] at h
    | ok p =>
      simp only [hr, Except.map, Except.ok.injEq, Prod.mk.injEq] at h
      have := ih (s := p.1) (by rw [hr, ← h.2])
      simp only [List.length_cons]
      omega

/-- The parse error of a fault in a literal whose opening quote is at `offset`
and whose remaining text is `body`. -/
def LiteralFault.toError (offset : Nat) (body : List Char) : LiteralFault → PolicyError
  | .unterminated =>
    .parse offset (String.ofList ('"' :: body)) "unterminated string literal"
  | .badUnicode text =>
    .parse (offset + 1 + byteLength body - byteLength text)
      (String.ofList ((takeBytes 6 text).getD [])) "invalid unicode escape"
  | .badEscape text =>
    .parse (offset + 1 + byteLength body - byteLength text)
      (String.ofList (text.take 2)) "unknown escape sequence"

/-! ## Tokens -/

/-- The tokens of a text that starts at `offset`. The loop of `tokenize`. -/
def tokenizeFrom (offset : Nat) : List Char → Except PolicyError (List Placed)
  | [] => .ok []
  | c :: cs =>
    let next := offset + c.utf8Size
    let single (token : Token) := (tokenizeFrom next cs).map (⟨token, offset⟩ :: ·)
    if isBlank c then tokenizeFrom next cs
    else if c = '(' then single .leftParen
    else if c = ')' then single .rightParen
    else if c = '[' then single .leftBracket
    else if c = ']' then single .rightBracket
    else if c = ',' then single .comma
    else if c = '"' then
      match h : readLiteral cs with
      | .error fault => .error (fault.toError offset cs)
      | .ok (s, rest) =>
        have := length_of_readLiteral h
        (tokenizeFrom (next + byteLength cs - byteLength rest) rest).map
          (⟨.literal (String.ofList s), offset⟩ :: ·)
    else
      let tail := cs.takeWhile (!isDelimiter ·)
      let rest := cs.dropWhile (!isDelimiter ·)
      have := (List.dropWhile_sublist (l := cs) (!isDelimiter ·)).length_le
      (tokenizeFrom (next + byteLength tail) rest).map
        (⟨.word (String.ofList (c :: tail)), offset⟩ :: ·)
termination_by cs => cs.length

/-- The tokens of a text. Model of `tokenize`. -/
def tokenize (text : String) : Except PolicyError (List Placed) := tokenizeFrom 0 text.toList

end PolicyDialects.Filter
