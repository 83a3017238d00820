import PolicyDialects.Cel.Parser
import PolicyDialects.Proofs.Cel.Tokens
import PolicyDialects.Proofs.Outcome

/-!
# Reading conditions piece by piece

What the reader makes of the pieces of a condition, whatever lexemes they
belong to. Each level of the grammar has a predicate on pieces and the tree
that they spell; what may stand behind the pieces gets less from level to
level.

Results:

* `member_path`, `readMember_literal`, `readMember_list`, `readMember_call`,
  `readMember_methodCall`, `readMember_paren`: operands.
* `ReadMember.negated`: operands behind `!` and `!!`.
* `readComparison_relation`, `readAnd_and`, `readOr_or`: operators.
* `ReadOr.parseLexemes_eq`: whole texts.
-/

namespace PolicyDialects.Cel

/-! ## What stands behind -/

/-- The lexemes are at their end or go on with one of the symbols. -/
def GoesOn (symbols : List Symbol) (rest : List Lexeme) : Prop :=
  ∀ t ∈ rest.head?, ∃ s ∈ symbols, t.token = .symbol s

/-- What closes a bracket or separates items. -/
def exprEnds : List Symbol := [.rightParen, .rightBracket, .comma]

/-- What may stand behind an operand of `||`. -/
def andEnds : List Symbol := .orOr :: exprEnds

/-- What may stand behind an operand of `&&`. -/
def comparisonEnds : List Symbol := .andAnd :: andEnds

/-- The relations. -/
def relations : List Symbol :=
  [.equalsEquals, .bangEquals, .less, .lessEquals, .greater, .greaterEquals, .in]

/-- What may stand behind an operand of a relation. -/
def operandEnds : List Symbol := relations ++ comparisonEnds

theorem goesOn_nil (symbols : List Symbol) : GoesOn symbols [] := by simp [GoesOn]

theorem goesOn_cons {symbols : List Symbol} {t : Lexeme} {s : Symbol} (ht : t.token = .symbol s)
    (hs : s ∈ symbols) (rest : List Lexeme) : GoesOn symbols (t :: rest) := by
  rintro t' ht'
  obtain rfl : t = t' := Option.some.inj ht'
  exact ⟨s, hs, ht⟩

theorem GoesOn.mono {symbols symbols' : List Symbol} {rest : List Lexeme}
    (h : GoesOn symbols rest) (hsub : symbols ⊆ symbols') : GoesOn symbols' rest := by
  intro t ht
  obtain ⟨s, hs, htoken⟩ := h t ht
  exact ⟨s, hsub hs, htoken⟩

/-- A property of the next token that each of the symbols has. -/
theorem GoesOn.head {symbols : List Symbol} {t : Lexeme} {rest : List Lexeme}
    (h : GoesOn symbols (t :: rest)) {p : Token → Prop} (hp : ∀ s ∈ symbols, p (.symbol s)) :
    p t.token := by
  obtain ⟨s, hs, htoken⟩ := h t rfl
  rw [htoken]
  exact hp s hs

/-! ## The predicates -/

/-- Whether the token may be the first of an operand without `!`. -/
def opensOperand : Token → Bool
  | .ident => true
  | .literal _ => true
  | .symbol s => s ∈ [.true, .false, .leftParen, .leftBracket]

/-- The pieces start with the first of an operand without `!`. -/
def OpensOperand (ps : List Piece) : Prop := ∃ p ps', ps = p :: ps' ∧ opensOperand p.1 = true

/-- A reader on these pieces, with `n` levels of brackets left, returns the
tree, if one of the symbols follows. -/
def ReadBy (reader : Ending → Reader → Reader) (symbols : List Symbol) (ps : List Piece)
    (t : Tree) : Prop :=
  ∀ ⦃finish n : Nat⦄ ⦃ls rest : List Lexeme⦄, ls.map Lexeme.piece = ps → ps.length ≤ n →
    GoesOn symbols rest →
    reader (.complete finish) (expr (.complete finish) n) (ls ++ rest) = .ok (t, rest)

/-- The pieces spell an operand without `!`. -/
structure ReadMember (ps : List Piece) (t : Tree) : Prop where
  opens : OpensOperand ps
  read : ReadBy member operandEnds ps t

/-- The pieces spell an operand. -/
abbrev ReadUnary (ps : List Piece) (t : Tree) : Prop := ReadBy unary operandEnds ps t

/-- The pieces spell an operand or a relation of two. -/
abbrev ReadComparison (ps : List Piece) (t : Tree) : Prop := ReadBy comparison comparisonEnds ps t

/-- The reader of conjunctions. -/
def conjunction (ending : Ending) (inner : Reader) : Reader := chain .and (comparison ending inner)

/-- The reader of conjunctions goes on behind the pieces. -/
def ReadAnd (ps : List Piece) (t : Tree) : Prop :=
  ∀ ⦃finish n : Nat⦄ ⦃ls rest : List Lexeme⦄, ls.map Lexeme.piece = ps → ps.length ≤ n →
    GoesOn comparisonEnds rest →
    conjunction (.complete finish) (expr (.complete finish) n) (ls ++ rest) =
      chainFrom .and (comparison (.complete finish) (expr (.complete finish) n)) t rest

/-- The reader of disjunctions goes on behind the pieces. -/
def ReadOr (ps : List Piece) (t : Tree) : Prop :=
  ∀ ⦃finish n : Nat⦄ ⦃ls rest : List Lexeme⦄, ls.map Lexeme.piece = ps → ps.length ≤ n →
    GoesOn andEnds rest →
    disjunction (.complete finish) (expr (.complete finish) n) (ls ++ rest) =
      chainFrom .or (conjunction (.complete finish) (expr (.complete finish) n)) t rest

/-- The reader of expressions returns the tree of the pieces. -/
def ReadExpr (ps : List Piece) (t : Tree) : Prop :=
  ∀ ⦃finish n : Nat⦄ ⦃ls rest : List Lexeme⦄, ls.map Lexeme.piece = ps → ps.length < n →
    GoesOn exprEnds rest → expr (.complete finish) n (ls ++ rest) = .ok (t, rest)

/-! ## From level to level -/

theorem chainFrom_of_none {level : Level} {rest : List Lexeme}
    (h : ∀ t ∈ rest.head?, (level t.token).isNone) (operand : Reader) (left : Tree) :
    chainFrom level operand left rest = .ok (left, rest) := by
  cases rest with
  | nil => rw [chainFrom]
  | cons t rest =>
    have hnone : level t.token = none := by simpa using h t rfl
    rw [chainFrom, hnone]

/-- No symbol of a list is an operator of the level. -/
theorem GoesOn.chainFrom_eq {symbols : List Symbol} {rest : List Lexeme}
    (h : GoesOn symbols rest) {level : Level} (hlevel : ∀ s ∈ symbols, (level (.symbol s)).isNone)
    (operand : Reader) (left : Tree) : chainFrom level operand left rest = .ok (left, rest) := by
  refine chainFrom_of_none (fun t ht => ?_) operand left
  obtain ⟨s, hs, htoken⟩ := h t ht
  rw [htoken]
  exact hlevel s hs

theorem negation?_of_opensOperand {t : Token} (h : opensOperand t = true) :
    negation? t = none := by
  cases t with
  | ident => rfl
  | literal kind => rfl
  | symbol s => cases s <;> first | rfl | cases h

theorem ReadMember.readUnary {ps : List Piece} {t : Tree} (h : ReadMember ps t) :
    ReadUnary ps t := by
  intro finish n ls rest hls hn hrest
  obtain ⟨p, ps', rfl, hp⟩ := h.opens
  have hread := h.read
  have hmember := @hread finish n _ _ hls hn hrest
  obtain ⟨l, ls', rfl, rfl, -⟩ := List.map_eq_cons_iff.mp hls
  have hnone : negation? l.token = none := negation?_of_opensOperand hp
  rw [List.cons_append] at hmember ⊢
  rw [unary, hnone]
  exact hmember

/-- One operand is a sum of operands. -/
theorem ReadUnary.sum_eq {ps : List Piece} {t : Tree} (h : ReadUnary ps t) :
    ReadBy sum operandEnds ps t := by
  intro finish n ls rest hls hn hrest
  have hmul : chain .mul (unary (.complete finish) (expr (.complete finish) n)) (ls ++ rest) =
      .ok (t, rest) := by
    unfold chain
    rw [h hls hn hrest]
    exact hrest.chainFrom_eq (by decide) _ _
  unfold sum chain
  simp only [chain] at hmul
  rw [hmul]
  exact hrest.chainFrom_eq (by decide) _ _

theorem ReadUnary.readComparison {ps : List Piece} {t : Tree} (h : ReadUnary ps t) :
    ReadComparison ps t := by
  intro finish n ls rest hls hn hrest
  have hsums := h.sum_eq
  have hsum := @hsums finish n _ _ hls hn (hrest.mono (List.subset_append_right _ _))
  unfold comparison
  refine bind_eq_ok.mpr ⟨_, hsum, ?_⟩
  cases rest with
  | nil => rfl
  | cons l rest =>
    have hnone : Level.rel l.token = none :=
      hrest.head (p := fun t => Level.rel t = none) (by decide +revert)
    dsimp only
    rw [hnone]
    rfl

theorem ReadComparison.readAnd {ps : List Piece} {t : Tree} (h : ReadComparison ps t) :
    ReadAnd ps t := by
  intro finish n ls rest hls hn hrest
  unfold conjunction chain
  rw [h hls hn hrest]

theorem ReadAnd.closed {ps : List Piece} {t : Tree} (h : ReadAnd ps t) :
    ReadBy conjunction andEnds ps t := by
  intro finish n ls rest hls hn hrest
  rw [h hls hn (hrest.mono (List.subset_cons_self _ _))]
  exact hrest.chainFrom_eq (by decide) _ _

theorem ReadAnd.readOr {ps : List Piece} {t : Tree} (h : ReadAnd ps t) : ReadOr ps t := by
  intro finish n ls rest hls hn hrest
  have hchain := h.closed
  have hclosed := @hchain finish n _ _ hls hn hrest
  unfold conjunction at hclosed
  unfold disjunction
  rw [chain, hclosed]
  rfl

theorem ReadOr.readExpr {ps : List Piece} {t : Tree} (h : ReadOr ps t) : ReadExpr ps t := by
  intro finish n ls rest hls hn hrest
  obtain ⟨n, rfl⟩ := Nat.exists_eq_add_one_of_ne_zero (Nat.ne_zero_of_lt hn)
  have hor := @h finish n _ _ hls (Nat.le_of_lt_succ hn) (hrest.mono (List.subset_cons_self _ _))
  rw [hrest.chainFrom_eq (by decide)] at hor
  rw [expr, choice, hor]
  cases rest with
  | nil => rfl
  | cons l rest =>
    have hne : l.token ≠ .symbol .question := hrest.head (p := (· ≠ .symbol .question)) (by decide)
    show (if l.token = .symbol .question then _ else _) = _
    rw [if_neg hne]
    rfl

theorem ReadMember.readExpr {ps : List Piece} {t : Tree} (h : ReadMember ps t) : ReadExpr ps t :=
  h.readUnary.readComparison.readAnd.readOr.readExpr

/-! ## Operands -/

/-- The piece of a symbol. -/
def mark (s : Symbol) : Piece := (.symbol s, s.spelling)

/-- The piece of a name. -/
def word (name : String) : Piece := (.ident, name.toList)

theorem exists_of_map_cons {ls : List Lexeme} {token : Token} {text : List Char}
    {ps : List Piece} (h : ls.map Lexeme.piece = (token, text) :: ps) :
    ∃ l ls', ls = l :: ls' ∧ l.token = token ∧ l.text = text ∧ ls'.map Lexeme.piece = ps := by
  obtain ⟨l, ls', rfl, hl, hls'⟩ := List.map_eq_cons_iff.mp h
  exact ⟨l, ls', rfl, congrArg Prod.fst hl, congrArg Prod.snd hl, hls'⟩

/-- Pieces before a closing one. -/
theorem exists_of_map_snoc {ls : List Lexeme} {token : Token} {text : List Char}
    {ps : List Piece} (h : ls.map Lexeme.piece = ps ++ [(token, text)]) :
    ∃ ls' l, ls = ls' ++ [l] ∧ ls'.map Lexeme.piece = ps ∧ l.token = token := by
  obtain ⟨ls', ls'', rfl, hls', hls''⟩ := List.map_eq_append_iff.mp h
  obtain ⟨l, ls₃, rfl, hl, -, hls₃⟩ := exists_of_map_cons hls''
  obtain rfl : ls₃ = [] := by simpa using hls₃
  exact ⟨ls', l, rfl, hls', hl⟩

theorem members_of_goesOn (ending : Ending) (inner : Reader) (e : Tree) {rest : List Lexeme}
    (h : GoesOn operandEnds rest) : members ending inner e rest = .ok (e, rest) := by
  have hsuffix : suffix ending inner e rest = .ok none := by
    cases rest with
    | nil => rfl
    | cons l rest =>
      obtain ⟨s, hs, htoken⟩ := h l rfl
      rw [suffix, htoken]
      revert hs
      cases s <;> first | exact fun _ => rfl | exact fun hs => absurd hs (by decide)
  rw [members, hsuffix]

/-- A literal is its value. -/
theorem readMember_literal {kind : LiteralKind} {text : List Char} {c : Constant}
    (h : literalValue? kind text = some c) :
    ReadMember [(.literal kind, text)] (.constant c) := by
  refine ⟨⟨_, [], rfl, rfl⟩, ?_⟩
  intro finish n ls rest hls hn hrest
  obtain ⟨l, ls', rfl, htoken, rfl, hls'⟩ := exists_of_map_cons hls
  obtain rfl : ls' = [] := by simpa using hls'
  have hliteral : literal (.complete finish) kind l.text rest = .ok (.constant c) := by
    have hvalue : literal.value kind l.text = .ok (.constant c) := by
      rw [literal.value, h]
    cases rest with
    | nil => exact hvalue
    | cons l' rest =>
      obtain ⟨s, hs, htoken'⟩ := hrest l' rfl
      have hfollows : ∀ s ∈ operandEnds, s.followsOperand = true := by decide
      rw [literal, htoken']
      show (if s.followsOperand = true then _ else _) = _
      rw [if_pos (hfollows s hs)]
      exact hvalue
  unfold member
  rw [List.cons_append, List.nil_append, primary, htoken]
  show ((literal _ _ _ _).map _ >>= _) = _
  rw [hliteral]
  exact members_of_goesOn _ _ _ hrest

/-- `true` and `false`. -/
theorem readMember_bool (b : Bool) :
    ReadMember [mark (if b then .true else .false)] (.constant (.bool b)) := by
  refine ⟨⟨_, [], rfl, by cases b <;> rfl⟩, ?_⟩
  intro finish n ls rest hls hn hrest
  obtain ⟨l, ls', rfl, htoken, -, hls'⟩ := exists_of_map_cons hls
  obtain rfl : ls' = [] := by simpa using hls'
  unfold member
  rw [List.cons_append, List.nil_append, primary, htoken]
  cases b <;> exact members_of_goesOn _ _ _ hrest

/-! ## Paths -/

/-- The pieces of the names that are selected one from the other. -/
def selectPieces (names : List String) : List Piece :=
  names.flatMap fun name => [mark .dot, word name]

/-- The names selected one from the other. -/
def selectAll (e : Tree) (names : List String) : Tree := names.foldl .select e

/-- No call starts. -/
def NoCall (rest : List Lexeme) : Prop := ∀ t ∈ rest.head?, t.token ≠ .symbol .leftParen

theorem GoesOn.noCall {rest : List Lexeme} (h : GoesOn operandEnds rest) : NoCall rest := by
  intro t ht
  obtain ⟨s, hs, htoken⟩ := h t ht
  have hne : ∀ s ∈ operandEnds, Token.symbol s ≠ .symbol .leftParen := by decide
  rw [htoken]
  exact hne s hs

theorem noCall_cons {t : Lexeme} (h : t.token ≠ .symbol .leftParen) (rest : List Lexeme) :
    NoCall (t :: rest) := by
  rintro t' ht'
  obtain rfl : t = t' := Option.some.inj ht'
  exact h

theorem suffix_select (ending : Ending) (inner : Reader) (e : Tree) {dot l : Lexeme}
    {rest : List Lexeme} (hdot : dot.token = .symbol .dot) (hl : l.token = .ident)
    (hrest : NoCall rest) :
    suffix ending inner e (dot :: l :: rest) = .ok (some (.select e (String.ofList l.text), rest)) := by
  rw [suffix, hdot]
  show (expectName ending (l :: rest) >>= _) = _
  rw [expectName, if_pos hl]
  cases rest with
  | nil => rfl
  | cons p rest =>
    show (if p.token = .symbol .leftParen then _ else _) = _
    rw [if_neg (hrest p rfl)]
    rfl

theorem members_selectAll (ending : Ending) (inner : Reader) (names : List String) (e : Tree)
    {ls rest : List Lexeme} (hls : ls.map Lexeme.piece = selectPieces names)
    (hrest : NoCall rest) :
    members ending inner e (ls ++ rest) = members ending inner (selectAll e names) rest := by
  induction names generalizing e ls with
  | nil =>
    obtain rfl : ls = [] := by simpa [selectPieces] using hls
    rfl
  | cons name names ih =>
    obtain ⟨dot, ls', rfl, hdot, -, hls'⟩ := exists_of_map_cons hls
    obtain ⟨l, ls'', rfl, hl, htext, hls''⟩ := exists_of_map_cons hls'
    have hcall : NoCall (ls'' ++ rest) := by
      cases names with
      | nil =>
        obtain rfl : ls'' = [] := by simpa [selectPieces] using hls''
        exact hrest
      | cons next names =>
        obtain ⟨dot', ls₃, rfl, hdot', -⟩ := exists_of_map_cons hls''
        exact noCall_cons (by rw [hdot']; decide) _
    have hname : String.ofList l.text = name := by rw [htext]; exact String.ofList_toList
    have hsuffix := suffix_select ending inner e hdot hl hcall
    have hlt : (ls'' ++ rest).length < (dot :: l :: (ls'' ++ rest)).length := by
      simp only [List.length_cons]; omega
    rw [List.cons_append, List.cons_append, members, hsuffix, hname]
    show (if _ then _ else _) = _
    rw [if_pos hlt, ih _ hls'']
    rfl

/-- A path, read up to what may go on with it. -/
theorem member_path (ending : Ending) (inner : Reader) (name : String) (names : List String)
    {ls rest : List Lexeme} (hls : ls.map Lexeme.piece = word name :: selectPieces names)
    (hrest : NoCall rest) :
    member ending inner (ls ++ rest) =
      members ending inner (selectAll (.ident name) names) rest := by
  obtain ⟨l, ls', rfl, hl, htext, hls'⟩ := exists_of_map_cons hls
  have hname : String.ofList l.text = name := by rw [htext]; exact String.ofList_toList
  have hcall : NoCall (ls' ++ rest) := by
    cases names with
    | nil =>
      obtain rfl : ls' = [] := by simpa [selectPieces] using hls'
      exact hrest
    | cons next names =>
      obtain ⟨dot, ls'', rfl, hdot, -⟩ := exists_of_map_cons hls'
      exact noCall_cons (by rw [hdot]; decide) _
  have hprimary : primary ending inner (l :: (ls' ++ rest)) = .ok (.ident name, ls' ++ rest) := by
    rw [primary, hl]
    show named _ _ _ _ = _
    rw [hname]
    cases hlist : ls' ++ rest with
    | nil => rfl
    | cons t rest' =>
      rw [named, if_neg (hcall t (by rw [hlist]; rfl))]
  unfold member
  rw [List.cons_append, hprimary]
  exact members_selectAll ending inner names _ hls' hrest

theorem readMember_path (name : String) (names : List String) :
    ReadMember (word name :: selectPieces names) (selectAll (.ident name) names) := by
  refine ⟨⟨_, _, rfl, rfl⟩, ?_⟩
  intro finish n ls rest hls hn hrest
  rw [member_path _ _ _ _ hls hrest.noCall]
  exact members_of_goesOn _ _ _ hrest

/-! ## Brackets -/

theorem expect_eq_ok {ending : Ending} {s : Symbol} {l : Lexeme} (h : l.token = .symbol s)
    (rest : List Lexeme) : expect ending s (l :: rest) = .ok rest := by
  rw [expect, if_pos h]

/-- An operand is no closing bracket. -/
theorem expect_of_opensOperand {ending : Ending} {s : Symbol} {l : Lexeme}
    (hs : s ∈ exprEnds) (h : opensOperand l.token = true) (rest : List Lexeme) :
    expect ending s (l :: rest) = .error (.unexpected l) := by
  have hne : l.token ≠ .symbol s := by
    intro htoken
    rw [htoken] at h
    have hcloses : ∀ s ∈ exprEnds, opensOperand (.symbol s) = false := by decide
    rw [hcloses s hs] at h
    cases h
  rw [expect, if_neg hne]

/-- The pieces spell items with commas between them, up to a closing bracket. -/
def ReadItems (close : Symbol) (ps : List Piece) (ts : List Tree) : Prop :=
  ∀ ⦃finish n : Nat⦄ ⦃ls rest : List Lexeme⦄ ⦃c : Lexeme⦄, ls.map Lexeme.piece = ps →
    ps.length < n → c.token = .symbol close →
    items (.complete finish) close (expr (.complete finish) n) (ls ++ c :: rest) = .ok (ts, rest)

theorem readItems_nil (close : Symbol) : ReadItems close [] [] := by
  intro finish n ls rest c hls hn hc
  obtain rfl : ls = [] := by simpa using hls
  rw [List.nil_append, items, expect_eq_ok hc]

/-- One item and what is behind it. -/
theorem items_item {finish n : Nat} {close : Symbol} {ps : List Piece} {t : Tree}
    {ls rest : List Lexeme} (h : ReadMember ps t) (hls : ls.map Lexeme.piece = ps)
    (hn : ps.length < n) (hclose : close ∈ exprEnds) (hrest : GoesOn exprEnds rest) :
    items (.complete finish) close (expr (.complete finish) n) (ls ++ rest) =
      match expect (.complete finish) .comma rest with
      | .ok rest' =>
        if rest'.length < (ls ++ rest).length then
          (items (.complete finish) close (expr (.complete finish) n) rest').map
            fun (xs, r) => (t :: xs, r)
        else .error (faultAt (.complete finish) rest')
      | .error _ => (expect (.complete finish) close rest).map fun rest' => ([t], rest') := by
  have hreads := h.readExpr
  have hexpr := @hreads finish n _ _ hls hn hrest
  obtain ⟨p, ps', rfl, hp⟩ := h.opens
  obtain ⟨l, ls', rfl, hl, -, -⟩ := exists_of_map_cons hls
  have hfirst : expect (.complete finish) close (l :: ls' ++ rest) = .error (.unexpected l) :=
    expect_of_opensOperand hclose (by rw [hl]; exact hp) _
  rw [items, hfirst]
  dsimp only
  generalize expr (.complete finish) n (l :: ls' ++ rest) = r at hexpr ⊢
  subst hexpr
  rfl

theorem readItems_one {close : Symbol} {ps : List Piece} {t : Tree} (h : ReadMember ps t)
    (hclose : close = .rightParen ∨ close = .rightBracket) : ReadItems close ps [t] := by
  intro finish n ls rest c hls hn hc
  have hends : close ∈ exprEnds := by rcases hclose with rfl | rfl <;> decide
  have hcomma : expect (.complete finish) .comma (c :: rest) = .error (.unexpected c) := by
    rw [expect, if_neg]
    rw [hc]
    rcases hclose with rfl | rfl <;> decide
  rw [items_item h hls hn hends (goesOn_cons hc hends _), hcomma, expect_eq_ok hc]
  rfl

theorem readItems_cons {close : Symbol} {ps qs : List Piece} {t : Tree} {ts : List Tree}
    (h : ReadMember ps t) (hqs : ReadItems close qs ts) (hclose : close ∈ exprEnds) :
    ReadItems close (ps ++ mark .comma :: qs) (t :: ts) := by
  intro finish n ls rest c hls hn hc
  obtain ⟨ls₁, ls', rfl, hls₁, hls'⟩ := List.map_eq_append_iff.mp hls
  obtain ⟨comma, ls₂, rfl, hcomma, -, hls₂⟩ := exists_of_map_cons hls'
  simp only [List.length_append, List.length_cons] at hn
  have hlt : (ls₂ ++ c :: rest).length < (ls₁ ++ comma :: (ls₂ ++ c :: rest)).length := by
    simp only [List.length_append, List.length_cons]; omega
  have hmore := @hqs finish n _ rest _ hls₂ (by omega) hc
  rw [List.append_assoc, List.cons_append,
    items_item h hls₁ (by omega) hclose (goesOn_cons hcomma (by decide) _), expect_eq_ok hcomma]
  dsimp only
  rw [if_pos hlt, hmore]
  rfl

/-- A list. -/
theorem readMember_list {ps : List Piece} {ts : List Tree} (h : ReadItems .rightBracket ps ts) :
    ReadMember (mark .leftBracket :: (ps ++ [mark .rightBracket])) (.list ts) := by
  refine ⟨⟨_, _, rfl, rfl⟩, ?_⟩
  intro finish n ls rest hls hn hrest
  obtain ⟨l, ls', rfl, hl, -, hls'⟩ := exists_of_map_cons hls
  obtain ⟨ls'', c, rfl, hls'', hc⟩ := exists_of_map_snoc hls'
  simp only [List.length_append, List.length_cons] at hn
  have hitems := @h finish n _ rest _ hls'' (by omega) hc
  unfold member
  rw [List.cons_append, List.append_assoc, List.singleton_append, primary, hl]
  show ((items _ _ _ _ >>= _) >>= _) = _
  rw [hitems]
  exact members_of_goesOn _ _ _ hrest

/-- A call of a name. -/
theorem readMember_call {name : String} {ps : List Piece} {ts : List Tree}
    (h : ReadItems .rightParen ps ts) :
    ReadMember (word name :: mark .leftParen :: (ps ++ [mark .rightParen])) (.call name ts) := by
  refine ⟨⟨_, _, rfl, rfl⟩, ?_⟩
  intro finish n ls rest hls hn hrest
  obtain ⟨l, ls₁, rfl, hl, htext, hls₁⟩ := exists_of_map_cons hls
  obtain ⟨paren, ls₂, rfl, hparen, -, hls₂⟩ := exists_of_map_cons hls₁
  obtain ⟨ls₃, c, rfl, hls₃, hc⟩ := exists_of_map_snoc hls₂
  have hname : String.ofList l.text = name := by rw [htext]; exact String.ofList_toList
  simp only [List.length_append, List.length_cons] at hn
  have hitems := @h finish n _ rest _ hls₃ (by omega) hc
  unfold member
  rw [List.cons_append, List.cons_append, List.append_assoc, List.singleton_append, primary, hl]
  show (named _ _ _ _ >>= _) = _
  rw [named, if_pos hparen, hname, hitems]
  exact members_of_goesOn _ _ _ hrest

/-- A call of a name that is selected from a path. -/
theorem readMember_methodCall {name method : String} {names : List String} {ps : List Piece}
    {ts : List Tree} (h : ReadItems .rightParen ps ts) :
    ReadMember
      (word name :: selectPieces names ++
        mark .dot :: word method :: mark .leftParen :: (ps ++ [mark .rightParen]))
      (.methodCall (selectAll (.ident name) names) method ts) := by
  refine ⟨⟨_, _, rfl, rfl⟩, ?_⟩
  intro finish n ls rest hls hn hrest
  obtain ⟨ls₁, ls', rfl, hls₁, hls'⟩ := List.map_eq_append_iff.mp hls
  obtain ⟨dot, ls₂, rfl, hdot, -, hls₂⟩ := exists_of_map_cons hls'
  obtain ⟨l, ls₃, rfl, hl, htext, hls₃⟩ := exists_of_map_cons hls₂
  obtain ⟨paren, ls₄, rfl, hparen, -, hls₄⟩ := exists_of_map_cons hls₃
  obtain ⟨ls₅, c, rfl, hls₅, hc⟩ := exists_of_map_snoc hls₄
  have hname : String.ofList l.text = method := by rw [htext]; exact String.ofList_toList
  simp only [List.length_append, List.length_cons] at hn
  have hitems := @h finish n _ rest _ hls₅ (by omega) hc
  have hsuffix : suffix (.complete finish) (expr (.complete finish) n)
      (selectAll (.ident name) names) (dot :: l :: paren :: (ls₅ ++ c :: rest)) =
      .ok (some (.methodCall (selectAll (.ident name) names) method ts, rest)) := by
    rw [suffix, hdot]
    show (expectName _ (l :: _) >>= _) = _
    rw [expectName, if_pos hl, hname]
    show (if paren.token = .symbol .leftParen then _ else _) = _
    rw [if_pos hparen, hitems]
    rfl
  have hlt : rest.length < (dot :: l :: paren :: (ls₅ ++ c :: rest)).length := by
    simp only [List.length_append, List.length_cons]; omega
  have hcall : NoCall (dot :: l :: paren :: (ls₅ ++ c :: rest)) :=
    noCall_cons (by rw [hdot]; decide) _
  rw [List.append_assoc, List.cons_append, List.cons_append, List.cons_append, List.append_assoc,
    List.singleton_append, member_path _ _ _ _ hls₁ hcall, members, hsuffix]
  dsimp only
  rw [if_pos hlt]
  exact members_of_goesOn _ _ _ hrest

/-- An expression in parentheses. -/
theorem readMember_paren {ps : List Piece} {t : Tree} (h : ReadExpr ps t) :
    ReadMember (mark .leftParen :: (ps ++ [mark .rightParen])) t := by
  refine ⟨⟨_, _, rfl, rfl⟩, ?_⟩
  intro finish n ls rest hls hn hrest
  obtain ⟨l, ls', rfl, hl, -, hls'⟩ := exists_of_map_cons hls
  obtain ⟨ls'', c, rfl, hls'', hc⟩ := exists_of_map_snoc hls'
  simp only [List.length_append, List.length_cons] at hn
  have hexpr := @h finish n _ _ hls'' (by omega) (goesOn_cons hc (by decide) rest)
  unfold member
  rw [List.cons_append, List.append_assoc, List.singleton_append, primary, hl]
  show ((expr _ _ _ >>= _) >>= _) = _
  rw [hexpr]
  show ((expect _ _ (c :: rest) >>= _) >>= _) = _
  rw [expect_eq_ok hc]
  exact members_of_goesOn _ _ _ hrest

/-! ## Operators -/

/-- An operator in front of an operand. -/
theorem ReadMember.negated {s : Symbol} {op : Negation} {ps : List Piece} {t : Tree}
    (hop : negation? (.symbol s) = some op) (h : ReadMember ps t) :
    ReadUnary (mark s :: ps) (.unary op t) := by
  intro finish n ls rest hls hn hrest
  obtain ⟨l, ls', rfl, hl, -, hls'⟩ := exists_of_map_cons hls
  have hread := h.read
  have hmember := @hread finish _ _ _ hls' (Nat.le_of_succ_le hn) hrest
  have hsign : negation? l.token = some op := by rw [hl]; exact hop
  rw [List.cons_append, unary, hsign]
  dsimp only
  rw [hmember]
  rfl

/-- A relation of two operands. -/
theorem readComparison_relation {s : Symbol} {op : Relation} {ps qs : List Piece} {l r : Tree}
    (hs : s ∈ relations) (hop : Level.rel (.symbol s) = some (.relation op)) (hl : ReadUnary ps l)
    (hr : ReadUnary qs r) : ReadComparison (ps ++ mark s :: qs) (.relation op l r) := by
  intro finish n ls rest hls hn hrest
  obtain ⟨ls₁, ls', rfl, hls₁, hls'⟩ := List.map_eq_append_iff.mp hls
  obtain ⟨sign, ls₂, rfl, hsign, -, hls₂⟩ := exists_of_map_cons hls'
  simp only [List.length_append, List.length_cons] at hn
  have hends : s ∈ operandEnds := List.mem_append_left _ hs
  have hlefts := hl.sum_eq
  have hleft := @hlefts finish n _ _ hls₁ (by omega)
    (goesOn_cons hsign hends (ls₂ ++ rest))
  have hrights := hr.sum_eq
  have hright := @hrights finish n _ _ hls₂ (by omega)
    (hrest.mono (List.subset_append_right _ _))
  have hrel : Level.rel sign.token = some (.relation op) := by rw [hsign]; exact hop
  unfold comparison
  rw [List.append_assoc, List.cons_append]
  refine bind_eq_ok.mpr ⟨_, hleft, ?_⟩
  dsimp only
  rw [hrel]
  exact bind_eq_ok.mpr ⟨_, hright, rfl⟩

theorem chainFrom_cons {level : Level} {operand : Reader} {join : Tree → Tree → Tree}
    {left right : Tree} {sign : Lexeme} {ls rest : List Lexeme}
    (hjoin : level sign.token = some join) (h : operand (ls ++ rest) = .ok (right, rest))
    (hls : ls ≠ []) :
    chainFrom level operand left (sign :: (ls ++ rest)) =
      chainFrom level operand (join left right) rest := by
  have hlt : rest.length < (ls ++ rest).length := by
    have := List.length_pos_iff.mpr hls
    rw [List.length_append]; omega
  rw [chainFrom, hjoin]
  dsimp only
  rw [h]
  exact if_pos hlt

theorem readAnd_and {ps qs : List Piece} {l r : Tree} (hl : ReadAnd ps l)
    (hr : ReadComparison qs r) (hqs : qs ≠ []) : ReadAnd (ps ++ mark .andAnd :: qs) (.and l r) := by
  intro finish n ls rest hls hn hrest
  obtain ⟨ls₁, ls', rfl, hls₁, hls'⟩ := List.map_eq_append_iff.mp hls
  obtain ⟨sign, ls₂, rfl, hsign, -, hls₂⟩ := exists_of_map_cons hls'
  simp only [List.length_append, List.length_cons] at hn
  have hne : ls₂ ≠ [] := by
    rintro rfl
    exact hqs hls₂.symm
  have hright := @hr finish n _ _ hls₂ (by omega) hrest
  have hjoin : Level.and sign.token = some .and := by rw [hsign]; rfl
  rw [List.append_assoc, List.cons_append,
    hl hls₁ (by omega) (goesOn_cons hsign (by decide) _)]
  exact chainFrom_cons hjoin hright hne

theorem readOr_or {ps qs : List Piece} {l r : Tree} (hl : ReadOr ps l)
    (hr : ReadAnd qs r) (hqs : qs ≠ []) : ReadOr (ps ++ mark .orOr :: qs) (.or l r) := by
  intro finish n ls rest hls hn hrest
  obtain ⟨ls₁, ls', rfl, hls₁, hls'⟩ := List.map_eq_append_iff.mp hls
  obtain ⟨sign, ls₂, rfl, hsign, -, hls₂⟩ := exists_of_map_cons hls'
  simp only [List.length_append, List.length_cons] at hn
  have hne : ls₂ ≠ [] := by
    rintro rfl
    exact hqs hls₂.symm
  have hchain := hr.closed
  have hright := @hchain finish n _ _ hls₂ (by omega) hrest
  have hjoin : Level.or sign.token = some .or := by rw [hsign]; rfl
  rw [List.append_assoc, List.cons_append,
    hl hls₁ (by omega) (goesOn_cons hsign (by decide) _)]
  exact chainFrom_cons hjoin hright hne

/-! ## Whole texts -/

theorem ReadExpr.parseLexemes_eq {ps : List Piece} {t : Tree} (h : ReadExpr ps t)
    {ls : List Lexeme} {finish : Nat} (hls : ls.map Lexeme.piece = ps) :
    parseLexemes ls (.complete finish) = .ok t := by
  have hlength : ps.length < ls.length + 1 := by
    rw [← hls, List.length_map]; omega
  have hexpr := @h finish _ _ _ hls hlength (goesOn_nil _)
  rw [List.append_nil] at hexpr
  rw [parseLexemes, hexpr]

/-- A text is read as the tree that its pieces spell. -/
theorem ReadExpr.parse_eq {ps : List Piece} {t : Tree} (h : ReadExpr ps t) {text : String}
    (htext : Lexes text.toList ps) : Tree.parse text = .ok t := by
  obtain ⟨ls, finish, hlexemes, hls⟩ := htext 0 0
  unfold Tree.parse lexemes
  rw [hlexemes]
  dsimp only
  rw [h.parseLexemes_eq hls]

end PolicyDialects.Cel
