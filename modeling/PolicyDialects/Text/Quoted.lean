import PolicyDialects.Text.Numeral

/-!
# Double-quoted literals

The one spelling of strings that filters, CEL and Cedar annotations share:
quotes and backslashes are escaped, line feed, carriage return and tab have
short escapes, and any other control character becomes `\u` with four
hexadecimal digits.

* `quoteChar`, `quote` — the literal of a text.
-/

namespace PolicyDialects.Text

/-- The spelling of one character inside a literal. One round of the loop of
`quote`. -/
def quoteChar (c : Char) : List Char :=
  if c = '"' then ['\\', '"']
  else if c = '\\' then ['\\', '\\']
  else if c = '\n' then ['\\', 'n']
  else if c = '\r' then ['\\', 'r']
  else if c = '\t' then ['\\', 't']
  else if isControl c then
    let n := c.toNat
    ['\\', 'u', '0', '0', hexDigit (n / 16), hexDigit (n % 16)]
  else [c]

/-- The spelling of a text inside a literal. -/
def quoteBody (cs : List Char) : List Char := cs.flatMap quoteChar

/-- The literal of a text. Model of `quote`. -/
def quote (s : String) : String := String.ofList ('"' :: (quoteBody s.toList ++ ['"']))

@[simp] theorem toList_quote (s : String) :
    (quote s).toList = '"' :: (quoteBody s.toList ++ ['"']) := by
  simp [quote]

@[simp] theorem quoteBody_nil : quoteBody [] = [] := rfl

@[simp] theorem quoteBody_cons (c : Char) (cs : List Char) :
    quoteBody (c :: cs) = quoteChar c ++ quoteBody cs := rfl

end PolicyDialects.Text
