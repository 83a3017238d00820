import PolicyDialects.Proofs.Condition.RoundTrip

/-!
# Negations that CEL cannot read

Export writes one `!` for each `not`, and CEL reads no more than two in a row.
A text with three is no CEL text, wherever in it they stand.

Results:

* `exists_parse_eq_error`: a text with three `!` in a row is refused.
* `parse_written_or_refused`: what export writes is read as its tree or not at
  all.
-/

namespace PolicyDialects.Cel

/-! ## Readers that fail -/

/-- A reader on these pieces, with `n` levels of brackets left, fails, whatever
follows. -/
def RefusedBy (reader : Ending → Reader → Reader) (ps : List Piece) : Prop :=
  ∀ ⦃finish n : Nat⦄ ⦃ls : List Lexeme⦄ (rest : List Lexeme), ls.map Lexeme.piece = ps →
    ps.length ≤ n →
    ∃ fault, reader (.complete finish) (expr (.complete finish) n) (ls ++ rest) = .error fault

section

variable {ps qs : List Piece}

theorem chain_eq_error {level : Level} {operand : Reader} {ts : List Lexeme} {fault : Fault}
    (h : operand ts = .error fault) : chain level operand ts = .error fault := by
  unfold chain
  rw [h]

theorem RefusedBy.comparison (h : RefusedBy unary ps) : RefusedBy comparison ps := by
  intro finish n ls rest hls hn
  obtain ⟨fault, hfault⟩ := @h finish n ls rest hls hn
  refine ⟨fault, ?_⟩
  have hsum : sum (.complete finish) (expr (.complete finish) n) (ls ++ rest) = .error fault :=
    chain_eq_error (chain_eq_error hfault)
  unfold Cel.comparison
  rw [hsum]
  rfl

theorem RefusedBy.conjunction (h : RefusedBy Cel.comparison ps) : RefusedBy conjunction ps := by
  intro finish n ls rest hls hn
  obtain ⟨fault, hfault⟩ := @h finish n ls rest hls hn
  exact ⟨fault, chain_eq_error hfault⟩

theorem RefusedBy.disjunction (h : RefusedBy Cel.conjunction ps) : RefusedBy disjunction ps := by
  intro finish n ls rest hls hn
  obtain ⟨fault, hfault⟩ := @h finish n ls rest hls hn
  exact ⟨fault, chain_eq_error hfault⟩

theorem RefusedBy.expr_eq_error (h : RefusedBy Cel.disjunction ps) {finish n : Nat}
    {ls : List Lexeme} (rest : List Lexeme) (hls : ls.map Lexeme.piece = ps) (hn : ps.length < n) :
    ∃ fault, expr (.complete finish) n (ls ++ rest) = .error fault := by
  obtain ⟨n, rfl⟩ := Nat.exists_eq_add_one_of_ne_zero (Nat.ne_zero_of_lt hn)
  obtain ⟨fault, hfault⟩ := @h finish n ls rest hls (Nat.le_of_lt_succ hn)
  refine ⟨fault, ?_⟩
  rw [expr, choice, hfault]
  rfl

/-- The operand of `!` fails. -/
theorem RefusedBy.negated {s : Symbol} {op : Negation} (hop : negation? (.symbol s) = some op)
    (h : RefusedBy member ps) : RefusedBy unary (mark s :: ps) := by
  intro finish n ls rest hls hn
  obtain ⟨l, ls', rfl, hl, -, hls'⟩ := exists_of_map_cons hls
  obtain ⟨fault, hfault⟩ := @h finish n ls' rest hls' (Nat.le_of_succ_le hn)
  have hsign : negation? l.token = some op := by rw [hl]; exact hop
  refine ⟨fault, ?_⟩
  rw [List.cons_append, unary, hsign]
  dsimp only
  rw [hfault]
  rfl

/-- `!` and `!!` start no operand of `!`. -/
theorem refusedBy_member_bang {s : Symbol} (hs : s = .bang ∨ s = .bangBang) (ps : List Piece) :
    RefusedBy member (mark s :: ps) := by
  intro finish n ls rest hls hn
  obtain ⟨l, ls', rfl, hl, -, -⟩ := exists_of_map_cons hls
  refine ⟨.unexpected l, ?_⟩
  unfold member
  rw [List.cons_append, primary, hl]
  rcases hs with rfl | rfl <;> rfl

/-- The expression between parentheses fails. -/
theorem refusedBy_member_paren (h : RefusedBy disjunction ps) :
    RefusedBy member (mark .leftParen :: (ps ++ [mark .rightParen])) := by
  intro finish n ls rest hls hn
  obtain ⟨l, ls', rfl, hl, -, hls'⟩ := exists_of_map_cons hls
  obtain ⟨ls'', c, rfl, hls'', -⟩ := exists_of_map_snoc hls'
  simp only [List.length_append, List.length_cons] at hn
  obtain ⟨fault, hfault⟩ := @RefusedBy.expr_eq_error _ h finish n ls'' (c :: rest) hls'' (by omega)
  refine ⟨fault, ?_⟩
  unfold member
  rw [List.cons_append, List.append_assoc, List.singleton_append, primary, hl]
  show ((expr _ _ _ >>= _) >>= _) = _
  rw [hfault]
  rfl

/-- What starts with a parenthesis is no negation. -/
theorem refusedBy_unary_paren (h : RefusedBy member (mark .leftParen :: ps)) :
    RefusedBy unary (mark .leftParen :: ps) := by
  intro finish n ls rest hls hn
  obtain ⟨fault, hfault⟩ := @h finish n ls rest hls hn
  obtain ⟨l, ls', rfl, hl, -, -⟩ := exists_of_map_cons hls
  refine ⟨fault, ?_⟩
  rw [List.cons_append] at hfault ⊢
  rw [unary, hl]
  exact hfault

theorem chainFrom_eq_error {level : Level} {operand : Reader} {join : Tree → Tree → Tree}
    {left : Tree} {sign : Lexeme} {rest : List Lexeme} {fault : Fault}
    (hjoin : level sign.token = some join) (h : operand rest = .error fault) :
    chainFrom level operand left (sign :: rest) = .error fault := by
  rw [chainFrom, hjoin]
  dsimp only
  rw [h]

/-- The first operand of `&&` or `||` fails. -/
theorem RefusedBy.append {reader : Ending → Reader → Reader} (h : RefusedBy reader ps)
    (qs : List Piece) : RefusedBy reader (ps ++ qs) := by
  intro finish n ls rest hls hn
  obtain ⟨ls₁, ls₂, rfl, hls₁, -⟩ := List.map_eq_append_iff.mp hls
  rw [List.length_append] at hn
  rw [List.append_assoc]
  exact @h finish n ls₁ (ls₂ ++ rest) hls₁ (by omega)

/-- The second operand of `&&` fails. -/
theorem refusedBy_and {l : Tree} (hl : ReadAnd ps l) (h : RefusedBy comparison qs) :
    RefusedBy conjunction (ps ++ mark .andAnd :: qs) := by
  intro finish n ls rest hls hn
  obtain ⟨ls₁, ls', rfl, hls₁, hls'⟩ := List.map_eq_append_iff.mp hls
  obtain ⟨sign, ls₂, rfl, hsign, -, hls₂⟩ := exists_of_map_cons hls'
  simp only [List.length_append, List.length_cons] at hn
  obtain ⟨fault, hfault⟩ := @h finish n ls₂ rest hls₂ (by omega)
  have hjoin : Level.and sign.token = some .and := by rw [hsign]; rfl
  refine ⟨fault, ?_⟩
  rw [List.append_assoc, List.cons_append,
    hl hls₁ (by omega) (goesOn_cons hsign (by decide) _)]
  exact chainFrom_eq_error hjoin hfault

/-- The second operand of `||` fails. -/
theorem refusedBy_or {l : Tree} (hl : ReadOr ps l) (h : RefusedBy conjunction qs) :
    RefusedBy disjunction (ps ++ mark .orOr :: qs) := by
  intro finish n ls rest hls hn
  obtain ⟨ls₁, ls', rfl, hls₁, hls'⟩ := List.map_eq_append_iff.mp hls
  obtain ⟨sign, ls₂, rfl, hsign, -, hls₂⟩ := exists_of_map_cons hls'
  simp only [List.length_append, List.length_cons] at hn
  obtain ⟨fault, hfault⟩ := @h finish n ls₂ rest hls₂ (by omega)
  have hjoin : Level.or sign.token = some .or := by rw [hsign]; rfl
  refine ⟨fault, ?_⟩
  rw [List.append_assoc, List.cons_append,
    hl hls₁ (by omega) (goesOn_cons hsign (by decide) _)]
  exact chainFrom_eq_error hjoin hfault

/-- A text is refused when the reader of disjunctions fails on its pieces. -/
theorem RefusedBy.exists_parse_eq_error (h : RefusedBy Cel.disjunction ps) {text : String}
    (htext : Lexes text.toList ps) : ∃ err, Tree.parse text = .error err := by
  obtain ⟨ls, finish, hlexemes, hls⟩ := htext 0 0
  have hlength : ps.length < ls.length + 1 := by
    rw [← hls, List.length_map]; omega
  obtain ⟨fault, hfault⟩ := @RefusedBy.expr_eq_error _ h finish _ ls [] hls hlength
  rw [List.append_nil] at hfault
  refine ⟨fault.toError text, ?_⟩
  unfold Tree.parse lexemes
  rw [hlexemes]
  dsimp only
  rw [parseLexemes, hfault]

end

end PolicyDialects.Cel

namespace PolicyDialects.Filter.Expression

open Cel (RefusedBy Tree)

/-! ## Expressions that are refused -/

/-- The readers of CEL fail, each on the expressions of its level. -/
structure RefusedAtLevels (e : Expression) : Prop where
  atom : e.isAtom = true → RefusedBy Cel.member e.celPieces
  term : e.isLogical = false → RefusedBy Cel.comparison e.celPieces
  and : e.isOr = false → RefusedBy Cel.conjunction e.celPieces
  or : RefusedBy Cel.disjunction e.celPieces

theorem refusedAtLevels_of_term {e : Expression}
    (hatom : e.isAtom = true → RefusedBy Cel.member e.celPieces)
    (h : RefusedBy Cel.unary e.celPieces) : RefusedAtLevels e :=
  ⟨hatom, fun _ => h.comparison, fun _ => h.comparison.conjunction,
    h.comparison.conjunction.disjunction⟩

theorem isNegatable_of_isAtom {e : Expression} (h : e.isAtom = true) : e.isNegatable = true := by
  cases e <;> first | exact h | cases h

/-- The readers fail at the first `!` that is one too many. -/
theorem refusedAtLevels {e : Expression} (he : e.IsExportable) (hopen : e.NotsOpen)
    (hg : e.IsGrammatical) (hnots : ¬e.NotsSpelled) : RefusedAtLevels e := by
  fun_induction celPieces e with
  | case1 c => exact absurd trivial hnots
  | case2 left right ihl ihr =>
    obtain ⟨hleft, hright, hgl, hgr⟩ := hg
    have hconjunction : RefusedBy Cel.conjunction
        (left.celPieces ++ Cel.mark .andAnd :: right.celPieces) := by
      by_cases hspelled : left.NotsSpelled
      · have hread := (readsAtLevels he.1 hspelled hgl).and hleft
        exact Cel.refusedBy_and hread
          ((ihr he.2 hopen.2 hgr fun h => hnots ⟨hspelled, h⟩).term hright)
      · exact ((ihl he.1 hopen.1 hgl hspelled).and hleft).append _
    exact ⟨fun hf => (by cases hf), fun hf => (by cases hf), fun _ => hconjunction,
      hconjunction.disjunction⟩
  | case3 left right ihl ihr =>
    obtain ⟨hright, hgl, hgr⟩ := hg
    have hdisjunction : RefusedBy Cel.disjunction
        (left.celPieces ++ Cel.mark .orOr :: right.celPieces) := by
      by_cases hspelled : left.NotsSpelled
      · exact Cel.refusedBy_or (readsAtLevels he.1 hspelled hgl).or
          ((ihr he.2 hopen.2 hgr fun h => hnots ⟨hspelled, h⟩).and hright)
      · exact (ihl he.1 hopen.1 hgl hspelled).or.append _
    exact ⟨fun hf => (by cases hf), fun hf => (by cases hf), fun hf => (by cases hf), hdisjunction⟩
  | case4 inner ih =>
    refine refusedAtLevels_of_term (fun hf => (by cases hf)) (RefusedBy.negated rfl ?_)
    by_cases hatom : inner.isAtom = true
    · refine (ih he hopen.2.2 hg.2.2 fun h => hnots ?_).atom hatom
      exact ⟨hatom, isNegatable_of_isAtom hatom, h⟩
    · -- a third negation stands behind the two
      have hnot : ∃ x, inner = .not x := by
        by_contra hne
        exact hatom (isAtom_of_isOperand hopen.2.1 (IsExportable.isWritable (e := inner) he)
          fun x hx => hne ⟨x, hx⟩)
      obtain ⟨x, rfl⟩ := hnot
      cases x <;> first
        | exact Cel.refusedBy_member_bang (.inr rfl) _
        | exact Cel.refusedBy_member_bang (.inl rfl) _
  | case5 inner hne ih =>
    have hatom := isAtom_of_isOperand hopen.1 (IsExportable.isWritable (e := inner) he)
      fun x hx => hne x hx
    refine refusedAtLevels_of_term (fun hf => (by cases hf)) ?_
    rw [celPieces]
    · refine RefusedBy.negated rfl ((ih he hopen.2 hg.2 fun h => hnots ?_).atom hatom)
      exact ⟨isNegatable_of_isAtom hatom, h⟩
    · exact hne
  | case6 inner ih =>
    have hmember := Cel.refusedBy_member_paren (ih he hopen hg hnots).or
    exact refusedAtLevels_of_term (fun _ => hmember) (Cel.refusedBy_unary_paren hmember)
  | case7 => exact he.1.elim

/-- A text with three `!` in a row is no CEL text. -/
theorem exists_parse_eq_error {e : Expression} (he : e.IsExportable) (hopen : e.NotsOpen)
    (hg : e.IsGrammatical) (hnots : ¬e.NotsSpelled) :
    ∃ err, Tree.parse e.celText = .error err := by
  have hlexes := lexes_celText he hopen Cel.endsLiteral_nil Cel.lexes_nil
  rw [List.append_nil, List.append_nil] at hlexes
  exact (refusedAtLevels he hopen hg hnots).or.exists_parse_eq_error hlexes

/-! ## What export writes -/

theorem notsOpen_negation {e : Expression} (h : e.NotsOpen) : e.negation.NotsOpen := by
  unfold negation
  split_ifs with hop
  · exact ⟨hop, h⟩
  · exact ⟨rfl, h⟩

theorem notsOpen_parenthesized {e : Expression} (he : e.IsWritable) (u : Bool) :
    (parenthesized u e).NotsOpen := by
  induction e using operandInduction generalizing u with
  | compare c => trivial
  | logical op left right ihl ihr =>
    cases op with
    | and => exact ⟨ihl he.1 true, ihr he.2 true⟩
    | or => cases u <;> exact ⟨ihl he.1 false, ihr he.2 false⟩
  | not inner ih =>
    rw [parenthesized_not]
    exact notsOpen_negation (ih ((each_unparenthesized inner).mpr he) false)
  | group inner ih => exact ih he false
  | valuePath path filter => exact he.1.elim

theorem notsOpen_attach {op : LogicalOperator} {left e : Expression} (hl : left.NotsOpen) :
    e.NotsOpen → (attach op left e).NotsOpen := by
  refine attach_induction (motive := fun e r => e.NotsOpen → r.NotsOpen) (fun a b ih => ?_)
    (fun e _ he => ⟨hl, he⟩) e
  exact fun he => ⟨ih he.1, he.2⟩

theorem isOperand_leftNested {e : Expression} (h : e.isOperand = true) :
    e.leftNested.isOperand = true := by
  cases e <;> first | exact h | cases h

theorem notsOpen_leftNested {e : Expression} (h : e.NotsOpen) : e.leftNested.NotsOpen := by
  induction e with
  | compare c => trivial
  | logical op left right ihl ihr => exact notsOpen_attach (ihl h.1) (ihr h.2)
  | not inner ih => exact ⟨isOperand_leftNested h.1, ih h.2⟩
  | group inner ih => exact ih h
  | valuePath path filter ih => exact ih h

/-- What export writes is read as its tree, unless it has three `!` in a row;
then it is not read at all. -/
theorem parse_written_or_refused {e : Expression} (he : e.IsExportable) :
    Tree.parse e.written.celText = .ok e.written.celTree ∨
      ∃ err, Tree.parse e.written.celText = .error err := by
  have hopen := notsOpen_parenthesized he.isWritable false
  have hgrammatical := isGrammatical_leftNested hopen.notsTight (orsApart_parenthesized he false)
  by_cases hspelled : e.written.NotsSpelled
  · exact .inl (parse_celText (isExportable_written he) hspelled hgrammatical)
  · exact .inr (exists_parse_eq_error (isExportable_written he) (notsOpen_leftNested hopen)
      hgrammatical hspelled)

end PolicyDialects.Filter.Expression
