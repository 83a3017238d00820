import PolicyDialects.Text.Numeral
import PolicyDialects.Text.Printable
import PolicyDialects.Text.Search

/-!
# Literals for people

How messages show a text: double-quoted, with `\t`, `\r`, `\n`, `\0`, `\"` and
`\\` escaped, and every other character that is not printable written as
`\u{…}` with its hexadecimal number.

* `showChar`, `shown` — one character and a whole text.
* `shownList` — a bracketed list of texts.
-/

namespace PolicyDialects.Text

/-- The spelling of one character. -/
def showChar (c : Char) : List Char :=
  if c = '"' then ['\\', '"']
  else if c = '\\' then ['\\', '\\']
  else if c = '\n' then ['\\', 'n']
  else if c = '\r' then ['\\', 'r']
  else if c = '\t' then ['\\', 't']
  else if c.toNat = 0 then ['\\', '0']
  else if isPrintable c then [c]
  else '\\' :: 'u' :: '\x7b' :: (hexNumeral c.toNat ++ ['\x7d'])

/-- The literal that shows a text. -/
def shown (s : String) : String := String.ofList ('"' :: (s.toList.flatMap showChar ++ ['"']))

/-- Items between brackets, with commas. -/
def bracketed (items : List String) : String := "[" ++ ", ".intercalate items ++ "]"

/-- A list of texts, each as `shown`. -/
def shownList (items : List String) : String := bracketed (items.map shown)

end PolicyDialects.Text
