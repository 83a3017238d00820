import PolicyDialects.Text.Chars
import PolicyDialects.Text.Search

/-!
# Lexical shapes of Cedar text

Each function splits a shape off the front of a text. They are greedy and do
not give back what they took.

* `skipSpace` — blanks and comments.
* `takeString` — a string literal; `unescape` — its value.
* `takeEntity` — an entity: string literals and characters that are neither
  blank nor one of `, ( ) [ ] { } ;`.
* `takeGroup` — text between balanced braces, whose strings hide braces.
* `takeBody` — the text of a clause up to its closing brace.
* `takeIdent` — an identifier; `takeKeyword` — a word in any case.
-/

namespace PolicyDialects.Cedar

open Text

/-! ## Space -/

/-- Blanks between tokens. The rule `WHITESPACE`. -/
def isSpace (c : Char) : Bool := c == ' ' || c == '\t' || c == '\r' || c == '\n'

/-- The text after leading blanks and comments. The rules `WHITESPACE` and
`COMMENT`. -/
def skipSpace : List Char → List Char
  | [] => []
  | c :: rest =>
    if isSpace c then skipSpace rest
    else
      match c, rest with
      | '/', '/' :: comment => skipComment comment
      | _, _ => c :: rest
where
  /-- The text after the rest of a comment and the space after it. -/
  skipComment : List Char → List Char
    | [] => []
    | c :: rest => if c = '\n' then skipSpace rest else skipComment rest

/-! ## Strings -/

/-- The rest of a string literal after its opening quote, through the closing
one, and what follows; a backslash hides the character after it. -/
def takeStringTail : List Char → Option (List Char × List Char)
  | [] => none
  | '"' :: rest => some (['"'], rest)
  | '\\' :: c :: rest => (takeStringTail rest).map fun (s, r) => ('\\' :: c :: s, r)
  | c :: rest => (takeStringTail rest).map fun (s, r) => (c :: s, r)

/-- A string literal. The rule `string`. -/
def takeString : List Char → Option (List Char × List Char)
  | '"' :: rest => (takeStringTail rest).map fun (s, r) => ('"' :: s, r)
  | _ => none

/-- The text with each backslash replaced by the character after it. -/
def unescape : List Char → List Char
  | [] => []
  | '\\' :: c :: rest => c :: unescape rest
  | ['\\'] => []
  | c :: rest => c :: unescape rest

/-- The value of a string literal. Model of `unquote`. -/
def stringValue (literal : List Char) : List Char := unescape (literal.drop 1).dropLast

theorem length_of_takeStringTail {cs s rest : List Char}
    (h : takeStringTail cs = some (s, rest)) : rest.length < cs.length := by
  fun_induction takeStringTail cs generalizing s with
  | case1 => simp at h
  | case2 => simp_all
  | case3 c tail ih =>
    obtain ⟨⟨s', r'⟩, h', he⟩ := Option.map_eq_some_iff.1 h
    simp only [Prod.mk.injEq] at he
    have := ih (he.2 ▸ h')
    simp only [List.length_cons]
    omega
  | case4 c tail _ _ ih =>
    obtain ⟨⟨s', r'⟩, h', he⟩ := Option.map_eq_some_iff.1 h
    simp only [Prod.mk.injEq] at he
    have := ih (he.2 ▸ h')
    simp only [List.length_cons]
    omega

theorem length_of_takeString {cs s rest : List Char}
    (h : takeString cs = some (s, rest)) : rest.length < cs.length := by
  unfold takeString at h
  split at h
  · obtain ⟨⟨s', r'⟩, h', he⟩ := Option.map_eq_some_iff.1 h
    simp only [Prod.mk.injEq] at he
    have := length_of_takeStringTail (he.2 ▸ h')
    simp only [List.length_cons]
    omega
  · simp at h

/-! ## Entities -/

/-- Characters that end an entity. -/
def endsEntity (c : Char) : Bool :=
  isSpace c || c == ',' || c == '(' || c == ')' || c == '[' || c == ']' || c == '\x7b' ||
    c == '\x7d' || c == ';'

/-- The characters of an entity, possibly none, and what follows. -/
def takeEntityChars : List Char → List Char × List Char
  | [] => ([], [])
  | c :: cs =>
    match h : takeString (c :: cs) with
    | some (s, rest) =>
      have := length_of_takeString h
      let (more, r) := takeEntityChars rest
      (s ++ more, r)
    | none =>
      if endsEntity c then ([], c :: cs)
      else
        let (more, r) := takeEntityChars cs
        (c :: more, r)
termination_by cs => cs.length
decreasing_by
  · exact this
  · exact Nat.lt_succ_self _

/-- An entity, which has at least one character. The rule `entity`. -/
def takeEntity (cs : List Char) : Option (List Char × List Char) :=
  match takeEntityChars cs with
  | ([], _) => none
  | (entity, rest) => some (entity, rest)

/-! ## Bodies -/

/-- Text that closes the given number of braces, through the last closing one;
strings hide braces. -/
def takeClosing (level : Nat) : List Char → Option (List Char × List Char)
  | [] => none
  | '"' :: cs =>
    match h : takeStringTail cs with
    | some (s, rest) =>
      have := length_of_takeStringTail h
      (takeClosing level rest).map fun (more, r) => ('"' :: s ++ more, r)
    | none => none
  | '\x7b' :: cs => (takeClosing (level + 1) cs).map fun (more, r) => ('\x7b' :: more, r)
  | '\x7d' :: cs =>
    match level with
    | 0 | 1 => some (['\x7d'], cs)
    | n + 2 => (takeClosing (n + 1) cs).map fun (more, r) => ('\x7d' :: more, r)
  | c :: cs => (takeClosing level cs).map fun (more, r) => (c :: more, r)
termination_by cs => cs.length
decreasing_by
  · exact Nat.lt_succ_of_lt this
  all_goals exact Nat.lt_succ_self _

/-- Text between balanced braces, with them. The rule `nested`. -/
def takeGroup : List Char → Option (List Char × List Char)
  | '\x7b' :: rest => (takeClosing 1 rest).map fun (more, r) => ('\x7b' :: more, r)
  | _ => none

theorem length_of_takeClosing {level : Nat} {cs s rest : List Char}
    (h : takeClosing level cs = some (s, rest)) : rest.length < cs.length := by
  fun_induction takeClosing level cs generalizing s with
  | case1 | case3 => simp at h
  | case2 level cs s' tail hs hlt ih =>
    obtain ⟨⟨t, r'⟩, h', he⟩ := Option.map_eq_some_iff.1 h
    simp only [Prod.mk.injEq] at he
    have := ih (he.2 ▸ h')
    simp only [List.length_cons]
    omega
  | case4 _ tail ih | case7 tail _ ih | case8 _ _ tail _ _ _ ih =>
    obtain ⟨⟨t, r'⟩, h', he⟩ := Option.map_eq_some_iff.1 h
    simp only [Prod.mk.injEq] at he
    have := ih (he.2 ▸ h')
    simp only [List.length_cons]
    omega
  | case5 | case6 => simp_all

theorem length_of_takeGroup {cs s rest : List Char}
    (h : takeGroup cs = some (s, rest)) : rest.length < cs.length := by
  unfold takeGroup at h
  split at h
  · obtain ⟨⟨s', r'⟩, h', he⟩ := Option.map_eq_some_iff.1 h
    simp only [Prod.mk.injEq] at he
    have := length_of_takeClosing (he.2 ▸ h')
    simp only [List.length_cons]
    omega
  · simp at h

/-- Strings, groups and other characters, up to a brace or quote that belongs to
none of them. The rule `body_text`. -/
def takeBody : List Char → List Char × List Char
  | [] => ([], [])
  | c :: cs =>
    match h : takeString (c :: cs) with
    | some (s, rest) =>
      have := length_of_takeString h
      let (more, r) := takeBody rest
      (s ++ more, r)
    | none =>
      match h : takeGroup (c :: cs) with
      | some (s, rest) =>
        have := length_of_takeGroup h
        let (more, r) := takeBody rest
        (s ++ more, r)
      | none =>
        if c = '\x7b' ∨ c = '\x7d' ∨ c = '"' then ([], c :: cs)
        else
          let (more, r) := takeBody cs
          (c :: more, r)
termination_by cs => cs.length
decreasing_by
  · exact this
  · exact this
  · exact Nat.lt_succ_self _

/-! ## Words -/

/-- An identifier: a letter or underscore, and letters, underscores and digits.
The rule `ident`. -/
def takeIdent : List Char → Option (List Char × List Char)
  | c :: cs =>
    if isIdentStart c then some (c :: cs.takeWhile isIdentPart, cs.dropWhile isIdentPart)
    else none
  | [] => none

/-- What follows a word, which may be in any case; nothing demands that the
word ends there. -/
def takeKeyword (word : List Char) (cs : List Char) : Option (List Char) :=
  if foldCase (cs.take word.length) = word then some (cs.drop word.length) else none

end PolicyDialects.Cedar
