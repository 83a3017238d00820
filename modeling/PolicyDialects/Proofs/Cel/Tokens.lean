import PolicyDialects.Proofs.Cel.Names

/-!
# Lexemes of CEL texts, piece by piece

How the lexemes of a text follow from those of its end, for the pieces that
conditions are made of.

Results:

* `Leads`, `lexes_token`: one token in front of a text, whatever it is. Each of
  the following is a token that leads a text.
* `lexes_blank`, `lexes_mark`, `lexes_openMark`, `lexes_dot`: a space, an
  operator or a bracket.
* `lexes_name`, `lexes_reserved`: an identifier, a reserved word.
-/

namespace PolicyDialects.Cel

open Text

/-- What a lexeme is and its text, wherever it stands. -/
abbrev Piece := Token × List Char

/-- A lexeme without its place. -/
def Lexeme.piece (t : Lexeme) : Piece := (t.token, t.text)

/-- Wherever the text starts, these are its lexemes, up to its end. -/
def Lexes (cs : List Char) (ps : List Piece) : Prop :=
  ∀ offset last, ∃ ts finish,
    lexemesFrom offset last cs = (ts, .complete finish) ∧ ts.map Lexeme.piece = ps

theorem lexes_nil : Lexes [] [] := fun offset last => ⟨[], last, by rw [lexemesFrom], rfl⟩

/-! ## Runs -/

theorem run_append {p : Char → Bool} {cs rest : List Char} (hcs : ∀ c ∈ cs, p c = true)
    (hrest : Stops p rest) : run p (cs ++ rest) = cs.length := by
  unfold run
  rw [takeWhile_append_stops hcs hrest]

theorem run_of_stops {p : Char → Bool} {cs : List Char} (h : Stops p cs) : run p cs = 0 :=
  run_append (List.forall_mem_nil _) h

theorem run_cons_of_neg {p : Char → Bool} {c : Char} (h : p c = false) (cs : List Char) :
    run p (c :: cs) = 0 :=
  run_of_stops (stops_cons h cs)

theorem commentLength_of_ne {c : Char} (h : c ≠ '/') (cs : List Char) :
    commentLength (c :: cs) = 0 := by
  unfold commentLength
  split
  · rename_i heq
    exact absurd (List.cons.inj heq).1 h
  · rfl

/-! ## Blanks -/

theorem ne_slash_of_isBlank {c : Char} (h : isBlank c = true) : c ≠ '/' := by
  rintro rfl
  cases h

/-- A blank in front only moves the text. -/
theorem lexemesFrom_blank {c : Char} (hc : isBlank c = true) (offset last : Nat)
    (cs : List Char) :
    lexemesFrom offset last (c :: cs) = lexemesFrom (offset + c.utf8Size) last cs := by
  have hrun : run isBlank (c :: cs) = run isBlank cs + 1 := by
    simp [run, hc]
  rw [lexemesFrom]
  simp only [commentLength_of_ne (ne_slash_of_isBlank hc), hrun, ne_eq, not_true_eq_false, if_false,
    Nat.succ_ne_zero, not_false_eq_true, if_true, List.take_succ_cons, byteLength_cons,
    Nat.add_sub_cancel]
  cases cs with
  | nil => simp [run]
  | cons b cs =>
    by_cases hb : isBlank b = true
    · have hrun' : run isBlank (b :: cs) = run isBlank cs + 1 := by
        simp [run, hb]
      conv_rhs => rw [lexemesFrom]
      simp only [commentLength_of_ne (ne_slash_of_isBlank hb), hrun', ne_eq, not_true_eq_false,
        if_false, Nat.succ_ne_zero, not_false_eq_true, if_true, Nat.add_sub_cancel,
        List.drop_succ_cons, Nat.add_assoc]
    · rw [run_cons_of_neg (by simpa using hb)]
      rfl

theorem lexes_blank {cs : List Char} {ps : List Piece} (h : Lexes cs ps) :
    Lexes (' ' :: cs) ps := fun offset last => by
  rw [lexemesFrom_blank (by decide)]
  exact h _ _

/-! ## Tokens -/

/-- The text is one token in front of what follows it. -/
structure Leads (token : Token) (text rest : List Char) : Prop where
  start : ∃ c cs, text = c :: cs ∧ isBlank c = false ∧ c ≠ '/'
  tokenAt_eq : tokenAt (text ++ rest) = (token, text.length)

/-- The lexemes of a text are its first token and those of what follows. -/
theorem Leads.lexemesFrom_eq {token : Token} {text rest : List Char} (h : Leads token text rest)
    (offset last : Nat) :
    lexemesFrom offset last (text ++ rest) =
      let finish := offset + byteLength text
      let more := lexemesFrom finish finish rest
      (⟨token, text, offset, finish⟩ :: more.1, more.2) := by
  obtain ⟨c, cs, rfl, hblank, hslash⟩ := h.start
  have htoken := h.tokenAt_eq
  have htake : (c :: (cs ++ rest)).take (c :: cs).length = c :: cs := by
    rw [← List.cons_append, List.take_left]
  have hdrop : (cs ++ rest).drop ((c :: cs).length - 1) = rest := by simp
  rw [List.cons_append] at htoken ⊢
  rw [lexemesFrom]
  simp only [commentLength_of_ne hslash, run_cons_of_neg hblank, htoken, htake, hdrop]
  simp

/-- One token in front of a text. -/
theorem lexes_token {token : Token} {text rest : List Char} {ps : List Piece}
    (hleads : Leads token text rest) (h : Lexes rest ps) :
    Lexes (text ++ rest) ((token, text) :: ps) := fun offset last => by
  obtain ⟨ts, finish, hts, hps⟩ := h (offset + byteLength text) (offset + byteLength text)
  refine ⟨⟨token, text, offset, offset + byteLength text⟩ :: ts, finish, ?_, ?_⟩
  · rw [hleads.lexemesFrom_eq]
    dsimp only
    rw [hts]
  · rw [List.map_cons, hps]
    rfl

/-! ## Shapes by their first character -/

theorem minusLength_of_ne {c : Char} (h : c ≠ '-') (cs : List Char) :
    minusLength (c :: cs) = 0 := by
  unfold minusLength
  split
  · rename_i heq
    exact absurd (List.cons.inj heq).1 h
  · rfl

theorem signLength_of_ne {c : Char} (hminus : c ≠ '-') (hplus : c ≠ '+') (cs : List Char) :
    signLength (c :: cs) = 0 := by
  unfold signLength
  split
  · rename_i heq
    exact absurd (List.cons.inj heq).1 hminus
  · rename_i heq
    exact absurd (List.cons.inj heq).1 hplus
  · rfl

theorem intLength_of_head {c : Char} (hminus : c ≠ '-') (hdigit : isDigit c = false)
    (cs : List Char) : intLength (c :: cs) = 0 := by
  simp only [intLength, minusLength_of_ne hminus, List.drop_zero, run_cons_of_neg hdigit, if_true]

theorem hexLength_of_head {c : Char} (hminus : c ≠ '-') (hdigit : isDigit c = false)
    (cs : List Char) : hexLength (c :: cs) = 0 := by
  simp only [hexLength, minusLength_of_ne hminus, List.drop_zero]
  split
  · rename_i heq
    rw [(List.cons.inj heq).1] at hdigit
    cases hdigit
  · rfl

theorem unsignedLength_zero (cs : List Char) : unsignedLength 0 cs = 0 := by
  unfold unsignedLength
  split
  · simp
  · rfl

theorem floatLength_of_head {c : Char} (hminus : c ≠ '-') (hplus : c ≠ '+') (hdot : c ≠ '.')
    (hdigit : isDigit c = false) (cs : List Char) : floatLength (c :: cs) = 0 := by
  simp only [floatLength, signLength_of_ne hminus hplus, List.drop_zero, run_cons_of_neg hdigit,
    Nat.add_zero]
  split
  · rename_i heq
    exact absurd (List.cons.inj heq).1 hdot
  · simp

theorem quotedLength_of_head {c : Char} (hdouble : c ≠ '"') (hsingle : c ≠ '\'')
    (shape : Char → List Char → Nat) (cs : List Char) : quotedLength shape (c :: cs) = 0 := by
  unfold quotedLength
  simp [hdouble, hsingle]

theorem letteredLength_of_head {c small capital : Char} (hsmall : c ≠ small)
    (hcapital : c ≠ capital) (shape : Char → List Char → Nat) (cs : List Char) :
    letteredLength small capital shape (c :: cs) = 0 := by
  unfold letteredLength
  simp [hsmall, hcapital]

theorem identLength_of_head {c : Char} (h : isIdentStart c = false) (cs : List Char) :
    identLength (c :: cs) = 0 := by
  unfold identLength
  simp [h]

theorem ne_of_isIdentStart_eq_false {c d : Char} (h : isIdentStart c = false)
    (hd : isIdentStart d = true) : c ≠ d := by
  rintro rfl
  rw [hd] at h
  cases h

/-- A literal or a name starts with none of these characters. -/
def startsNoShape (c : Char) : Bool :=
  !isIdentStart c && !isDigit c && !(c == '-' || c == '+' || c == '"' || c == '\'')

/-- Where no shape starts, none is the longest; a point needs a digit behind
it. -/
theorem longest_shapes_eq_none {c : Char} {cs : List Char} (hc : startsNoShape c = true)
    (hdot : c = '.' → Stops isDigit cs) : longest (shapes (c :: cs)) = (.ident, 0) := by
  simp only [startsNoShape, Bool.and_eq_true, Bool.not_eq_true', Bool.or_eq_false_iff,
    beq_eq_false_iff_ne] at hc
  obtain ⟨⟨hident, hdigit⟩, ⟨⟨hminus, hplus⟩, hdouble⟩, hsingle⟩ := hc
  have hletter : ∀ {d : Char}, isIdentStart d = true → c ≠ d := fun hd =>
    ne_of_isIdentStart_eq_false hident hd
  have hfloat : floatLength (c :: cs) = 0 := by
    by_cases hpoint : c = '.'
    · subst hpoint
      show (if run isDigit cs = 0 then 0 else _) = 0
      rw [if_pos (run_of_stops (hdot rfl))]
    · exact floatLength_of_head hminus hplus hpoint hdigit cs
  unfold shapes
  rw [intLength_of_head hminus hdigit, hexLength_of_head hminus hdigit, unsignedLength_zero, hfloat,
    quotedLength_of_head hdouble hsingle, letteredLength_of_head (hletter (by decide))
      (hletter (by decide)), letteredLength_of_head (hletter (by decide)) (hletter (by decide)),
    identLength_of_head hident]
  rfl

/-! ## Marks -/

/-- Where no shape of a literal or a name starts, the token is a mark. -/
theorem tokenAt_of_symbolAt? {s : Symbol} {c : Char} {cs : List Char}
    (hc : startsNoShape c = true) (hdot : c = '.' → Stops isDigit cs)
    (hsymbol : symbolAt? (c :: cs) = some s) :
    tokenAt (c :: cs) = (.symbol s, s.spelling.length) := by
  unfold tokenAt
  rw [longest_shapes_eq_none hc hdot, hsymbol]
  rfl

/-- Marks of conditions that start no longer mark. -/
def closedMarks : List Symbol :=
  [.orOr, .andAnd, .bangBang, .bangEquals, .lessEquals, .greaterEquals, .equalsEquals, .comma,
    .leftParen, .rightParen, .leftBracket, .rightBracket]

/-- Marks of conditions that a longer mark starts with. -/
def openMarks : List Symbol := [.bang, .less, .greater]

theorem symbolAt?_closedMark {s : Symbol} (hs : s ∈ closedMarks) (rest : List Char) :
    symbolAt? (s.spelling ++ rest) = some s := by
  simp only [closedMarks, List.mem_cons, List.not_mem_nil, or_false] at hs
  rcases hs with rfl | rfl | rfl | rfl | rfl | rfl | rfl | rfl | rfl | rfl | rfl | rfl <;>
    simp [symbolAt?, Symbol.marks, Symbol.spelling, List.isPrefixOf]

theorem symbolAt?_openMark {s : Symbol} (hs : s ∈ openMarks) {rest : List Char}
    (hrest : Stops (fun c => c == '!' || c == '=') rest) :
    symbolAt? (s.spelling ++ rest) = some s := by
  simp only [openMarks, List.mem_cons, List.not_mem_nil, or_false] at hs
  cases rest with
  | nil =>
    rcases hs with rfl | rfl | rfl <;>
      simp [symbolAt?, Symbol.marks, Symbol.spelling, List.isPrefixOf]
  | cons c rest =>
    have hc := hrest c rfl
    simp only [Bool.or_eq_false_iff, beq_eq_false_iff_ne] at hc
    rcases hs with rfl | rfl | rfl <;>
      simp [symbolAt?, Symbol.marks, Symbol.spelling, List.isPrefixOf, hc.1.symm, hc.2.symm]

theorem headD_spelling : ∀ s ∈ closedMarks ++ openMarks, s.spelling ≠ [] ∧
    startsNoShape (s.spelling.headD ' ') = true ∧ isBlank (s.spelling.headD ' ') = false ∧
    s.spelling.headD ' ' ≠ '/' ∧ s.spelling.headD ' ' ≠ '.' := by
  decide

/-- A mark in front of a text. -/
theorem leads_symbol {s : Symbol} {rest : List Char} (hs : s ∈ closedMarks ++ openMarks)
    (hsymbol : symbolAt? (s.spelling ++ rest) = some s) :
    Leads (.symbol s) s.spelling rest := by
  obtain ⟨hne, hc, hblank, hslash, hdot⟩ := headD_spelling s hs
  generalize hspelling : s.spelling = spelling at *
  obtain ⟨c, cs, rfl⟩ := List.exists_cons_of_ne_nil hne
  have htoken := tokenAt_of_symbolAt? hc (fun h => absurd h hdot) hsymbol
  rw [hspelling] at htoken
  exact ⟨⟨c, cs, rfl, hblank, hslash⟩, htoken⟩

theorem leads_mark {s : Symbol} (hs : s ∈ closedMarks) (rest : List Char) :
    Leads (.symbol s) s.spelling rest :=
  leads_symbol (List.mem_append_left _ hs) (symbolAt?_closedMark hs rest)

theorem leads_openMark {s : Symbol} {rest : List Char} (hs : s ∈ openMarks)
    (hrest : Stops (fun c => c == '!' || c == '=') rest) : Leads (.symbol s) s.spelling rest :=
  leads_symbol (List.mem_append_right _ hs) (symbolAt?_openMark hs hrest)

theorem leads_dot {rest : List Char} (hrest : Stops isDigit rest) :
    Leads (.symbol .dot) ['.'] rest := by
  have hsymbol : symbolAt? ('.' :: rest) = some .dot := by
    simp [symbolAt?, Symbol.marks, Symbol.spelling, List.isPrefixOf]
  exact ⟨⟨'.', [], rfl, by decide, by decide⟩,
    tokenAt_of_symbolAt? (by decide) (fun _ => hrest) hsymbol⟩

theorem lexes_mark {s : Symbol} {rest : List Char} {ps : List Piece} (hs : s ∈ closedMarks)
    (h : Lexes rest ps) : Lexes (s.spelling ++ rest) ((.symbol s, s.spelling) :: ps) :=
  lexes_token (leads_mark hs rest) h

theorem lexes_openMark {s : Symbol} {rest : List Char} {ps : List Piece} (hs : s ∈ openMarks)
    (hrest : Stops (fun c => c == '!' || c == '=') rest) (h : Lexes rest ps) :
    Lexes (s.spelling ++ rest) ((.symbol s, s.spelling) :: ps) :=
  lexes_token (leads_openMark hs hrest) h

theorem lexes_dot {rest : List Char} {ps : List Piece} (hrest : Stops isDigit rest)
    (h : Lexes rest ps) : Lexes ('.' :: rest) ((.symbol .dot, ['.']) :: ps) :=
  lexes_token (leads_dot hrest) h

/-! ## Names and reserved words -/

/-- The quotes of string literals. -/
def isQuote (c : Char) : Bool := c == '"' || c == '\''

/-- The text goes on neither with the name before it nor with a quote, which
could make a letter before it the prefix of a literal. -/
abbrev EndsName (rest : List Char) : Prop := Stops (fun c => isIdentPart c || isQuote c) rest

theorem letteredLength_of_stops {cs : List Char} (h : Stops isQuote cs) (c small capital : Char)
    (shape : Char → List Char → Nat) : letteredLength small capital shape (c :: cs) = 0 := by
  have hquoted : quotedLength shape cs = 0 := by
    cases cs with
    | nil => rfl
    | cons q cs =>
      have hq := h q rfl
      simp only [isQuote, Bool.or_eq_false_iff, beq_eq_false_iff_ne] at hq
      exact quotedLength_of_head hq.1 hq.2 shape cs
  unfold letteredLength
  simp [hquoted]

theorem ne_of_isIdentStart {c d : Char} (h : isIdentStart c = true) (hd : isIdentStart d = false) :
    c ≠ d := by
  rintro rfl
  rw [h] at hd
  cases hd

theorem toNat_lt_of_isIdentPart {c : Char} (h : isIdentPart c = true) : c.toNat < 128 := by
  simp only [isIdentPart, isIdentStart, Bool.or_eq_true, beq_iff_eq] at h
  rcases h with (h | rfl) | h
  · exact toNat_lt_of_isLetter h
  · decide
  · exact toNat_lt_of_isDigit h

theorem isDigit_of_isIdentStart {c : Char} (h : isIdentStart c = true) : isDigit c = false := by
  have hascii : c.toNat < 128 := toNat_lt_of_isIdentPart (by simp [isIdentPart, h])
  revert h
  exact of_ascii hascii (by decide)

theorem IsName.stops_isDigit {name : List Char} (h : IsName name) (rest : List Char) :
    Stops isDigit (name ++ rest) := by
  obtain ⟨c, cs, rfl, hc⟩ := h.start
  exact stops_cons (isDigit_of_isIdentStart hc) _

theorem isQuote_of_isIdentPart {c : Char} (h : isIdentPart c = true) : isQuote c = false := by
  have hascii := toNat_lt_of_isIdentPart h
  revert h
  exact of_ascii hascii (by decide)

/-- No mark starts with the character. -/
def startsNoMark (c : Char) : Bool := Symbol.marks.all fun s => s.spelling.head? != some c

theorem symbolAt?_eq_none {c : Char} (h : startsNoMark c = true) (cs : List Char) :
    symbolAt? (c :: cs) = none := by
  unfold symbolAt?
  rw [List.find?_eq_none]
  intro s hs hspelled
  have hhead := List.all_eq_true.mp h s hs
  cases hspelling : s.spelling with
  | nil =>
    have hne : ∀ s ∈ Symbol.marks, s.spelling ≠ [] := by decide
    exact absurd hspelling (hne s hs)
  | cons d ds =>
    rw [hspelling] at hspelled hhead
    simp only [List.isPrefixOf, Bool.and_eq_true, beq_iff_eq] at hspelled
    simp [hspelled.1] at hhead

/-- The longest shape at a name. -/
theorem longest_name {c : Char} {cs rest : List Char} (hc : isIdentStart c = true)
    (hcs : ∀ x ∈ cs, isIdentPart x = true) (hrest : EndsName rest) :
    longest (shapes (c :: cs ++ rest)) = (.ident, (c :: cs).length) := by
  have hne : ∀ {d : Char}, isIdentStart d = false → c ≠ d := fun hd => ne_of_isIdentStart hc hd
  have hdigit := isDigit_of_isIdentStart hc
  have hstops : Stops isQuote (cs ++ rest) := by
    cases cs with
    | nil => exact hrest.mono fun x hx => by simp [hx]
    | cons x cs => exact stops_cons (isQuote_of_isIdentPart (hcs x List.mem_cons_self)) _
  have hident : identLength (c :: (cs ++ rest)) = (c :: cs).length := by
    unfold identLength
    simp only [hc, if_true]
    rw [run_append hcs (hrest.mono fun x hx => by simp [hx]), List.length_cons, Nat.add_comm]
  rw [List.cons_append]
  unfold shapes
  rw [intLength_of_head (hne (by decide)) hdigit, hexLength_of_head (hne (by decide)) hdigit,
    unsignedLength_zero, floatLength_of_head (hne (by decide)) (hne (by decide)) (hne (by decide))
      hdigit, quotedLength_of_head (hne (by decide)) (hne (by decide)),
    letteredLength_of_stops hstops, letteredLength_of_stops hstops, hident]
  exact longest_append_cons [(.literal .int, 0), (.literal .hex, 0), (.literal .unsigned, 0),
    (.literal .unsigned, 0), (.literal .float, 0), (.literal .string, 0), (.literal .rawString, 0),
    (.literal .bytes, 0)] (by simp) (by simp)

theorem isBlank_of_isIdentStart {c : Char} (h : isIdentStart c = true) :
    isBlank c = false ∧ c ≠ '/' ∧ startsNoMark c = true := by
  have hascii : c.toNat < 128 := toNat_lt_of_isIdentPart (by simp [isIdentPart, h])
  revert h
  exact of_ascii hascii (by decide)

theorem leads_name {name rest : List Char} (hname : IsName name) (hrest : EndsName rest) :
    Leads .ident name rest := by
  obtain ⟨c, cs, rfl, hc⟩ := hname.start
  obtain ⟨hblank, hslash, hmark⟩ := isBlank_of_isIdentStart hc
  have hlongest := longest_name hc (fun x hx => hname.part x (List.mem_cons_of_mem _ hx)) hrest
  refine ⟨⟨c, cs, rfl, hblank, hslash⟩, ?_⟩
  have hfree : (Symbol.words.find? fun s =>
      Token.ident = .ident ∧ s.spelling = (c :: cs ++ rest).take (c :: cs).length) = none := by
    rw [List.find?_eq_none, List.take_left]
    intro s hs heq
    exact hname.free s hs (by simpa using heq)
  unfold tokenAt
  rw [hlongest]
  dsimp only
  rw [hfree, List.cons_append, symbolAt?_eq_none hmark]

theorem leads_reserved {s : Symbol} {rest : List Char} (hs : s ∈ Symbol.words)
    (hrest : EndsName rest) : Leads (.symbol s) s.spelling rest := by
  have hspelling : s.spelling ≠ [] ∧ isIdentStart (s.spelling.headD ' ') = true ∧
      (∀ x ∈ s.spelling, isIdentPart x = true) ∧
      (Symbol.words.find? fun w => Token.ident = .ident ∧ w.spelling = s.spelling) = some s := by
    have hwords : ∀ s ∈ Symbol.words, s.spelling ≠ [] ∧ isIdentStart (s.spelling.headD ' ') = true ∧
        (∀ x ∈ s.spelling, isIdentPart x = true) ∧
        (Symbol.words.find? fun w => Token.ident = .ident ∧ w.spelling = s.spelling) =
          some s := by
      decide
    exact hwords s hs
  obtain ⟨hne, hc, hcs, hfind⟩ := hspelling
  generalize s.spelling = spelling at *
  obtain ⟨c, cs, rfl⟩ := List.exists_cons_of_ne_nil hne
  rw [List.headD_cons] at hc
  obtain ⟨hblank, hslash, -⟩ := isBlank_of_isIdentStart hc
  have hlongest := longest_name hc (fun x hx => hcs x (List.mem_cons_of_mem _ hx)) hrest
  refine ⟨⟨c, cs, rfl, hblank, hslash⟩, ?_⟩
  unfold tokenAt
  rw [hlongest]
  dsimp only
  rw [List.take_left, hfind]

theorem lexes_name {name rest : List Char} {ps : List Piece} (hname : IsName name)
    (hrest : EndsName rest) (h : Lexes rest ps) : Lexes (name ++ rest) ((.ident, name) :: ps) :=
  lexes_token (leads_name hname hrest) h

theorem lexes_reserved {s : Symbol} {rest : List Char} {ps : List Piece} (hs : s ∈ Symbol.words)
    (hrest : EndsName rest) (h : Lexes rest ps) :
    Lexes (s.spelling ++ rest) ((.symbol s, s.spelling) :: ps) :=
  lexes_token (leads_reserved hs hrest) h

end PolicyDialects.Cel
