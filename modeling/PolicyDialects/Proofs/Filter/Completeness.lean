import PolicyDialects.Proofs.Filter.Reading
import PolicyDialects.Proofs.Filter.Soundness

/-!
# The reader of filters accepts its grammar

What the grammar derives from a sequence of tokens is what the readers find in
it, whatever stands behind, as long as its terms are not nested too deeply.

Results:

* `readValue_of_spells`: values.
* `SpellsTerm.reads`, `SpellsAnd.reads`, `SpellsOr.reads`: the three levels of
  the grammar.
* `SpellsOr.eq_of_spells`: tokens spell at most one expression.
* `Expression.parse_eq_ok_iff`: a text is read as an expression exactly if the
  grammar derives it from all tokens of the text within the bounds.
-/

namespace PolicyDialects.Filter

open Text

variable {us : List Token} {ps : List Placed}

/-! ## Places of tokens -/

theorem exists_placed_cons {t : Token} (h : ps.map Placed.token = t :: us) :
    ∃ o qs, ps = ⟨t, o⟩ :: qs ∧ qs.map Placed.token = us := by
  obtain ⟨⟨_, o⟩, qs, rfl, rfl, hqs⟩ := List.map_eq_cons_iff.mp h
  exact ⟨o, qs, rfl, hqs⟩

theorem exists_placed_singleton {t : Token} (h : ps.map Placed.token = [t]) :
    ∃ o, ps = [⟨t, o⟩] := by
  obtain ⟨o, qs, rfl, hqs⟩ := exists_placed_cons h
  exact ⟨o, by rw [List.map_eq_nil_iff.mp hqs]⟩

/-- Tokens between two brackets. -/
theorem exists_placed_enclosed {t t' : Token} (h : ps.map Placed.token = t :: (us ++ [t'])) :
    ∃ o qs o', ps = ⟨t, o⟩ :: (qs ++ [⟨t', o'⟩]) ∧ qs.map Placed.token = us := by
  obtain ⟨o, rest, rfl, hrest⟩ := exists_placed_cons h
  obtain ⟨qs, last, rfl, hqs, hlast⟩ := List.map_eq_append_iff.mp hrest
  obtain ⟨o', rfl⟩ := exists_placed_singleton hlast
  exact ⟨o, qs, o', rfl, hqs⟩

/-! ## Values -/

/-- The items behind the first one and its comma. -/
theorem readItems_of_spells {vs : List Value} (h : SpellsItems us vs)
    (hps : ps.map Placed.token = us) (opening : Placed) (oc o : Nat) (rest : List Placed) :
    readItems opening (⟨.comma, oc⟩ :: (ps ++ ⟨.rightBracket, o⟩ :: rest)) = .ok (vs, rest) := by
  induction h generalizing ps oc with
  | one hitem =>
    obtain ⟨ot, rfl⟩ := exists_placed_singleton hps
    rw [List.singleton_append, readItems_comma, hitem]
    rfl
  | more hitem _ ih =>
    obtain ⟨ot, qs, rfl, hqs⟩ := exists_placed_cons hps
    obtain ⟨oc', rs, rfl, hrs⟩ := exists_placed_cons hqs
    rw [List.cons_append, List.cons_append, readItems_comma, hitem]
    dsimp only
    rw [ih hrs oc']
    rfl

/-- A list behind its opening bracket. -/
theorem readList_of_spells {vs : List Value} (h : SpellsItems us vs)
    (hps : ps.map Placed.token = us) (opening : Placed) (o : Nat) (rest : List Placed) :
    readList opening (ps ++ ⟨.rightBracket, o⟩ :: rest) = .ok (vs, rest) := by
  have hne : ∀ {t : Token} {v : Value}, itemValue? t = some v → t ≠ .rightBracket := by
    rintro t v hitem rfl
    cases hitem
  cases h with
  | one hitem =>
    obtain ⟨ot, rfl⟩ := exists_placed_singleton hps
    rw [List.singleton_append, readList_cons (hne hitem), hitem]
    rfl
  | more hitem hitems =>
    obtain ⟨ot, qs, rfl, hqs⟩ := exists_placed_cons hps
    obtain ⟨oc, rs, rfl, hrs⟩ := exists_placed_cons hqs
    rw [List.cons_append, List.cons_append, readList_cons (hne hitem), hitem]
    dsimp only
    rw [readItems_of_spells hitems hrs]
    rfl

/-- The value after an operator. -/
theorem readValue_of_spells {op : CompareOperator} {v : Value} (h : SpellsValue op us v)
    (hps : ps.map Placed.token = us) (t : Placed) (rest : List Placed) :
    readValue op t (ps ++ rest) = .ok (v, rest) := by
  cases h with
  | literal s =>
    obtain ⟨o, rfl⟩ := exists_placed_singleton hps
    rfl
  | word hfree =>
    obtain ⟨o, rfl⟩ := exists_placed_singleton hps
    rw [List.singleton_append, readValue, hfree, if_neg Bool.false_ne_true]
  | noItems hop =>
    obtain ⟨o, qs, rfl, hqs⟩ := exists_placed_cons hps
    obtain ⟨o', rfl⟩ := exists_placed_singleton hqs
    rw [List.cons_append, readValue, if_pos hop]
    rfl
  | items hop hitems =>
    obtain ⟨o, qs, o', rfl, hqs⟩ := exists_placed_enclosed hps
    rw [List.cons_append, List.append_assoc, List.singleton_append, readValue, if_pos hop,
      readList_of_spells hitems hqs]
    rfl

/-! ## Levels of the grammar -/

/-- The reader of terms finds the expression in the tokens and leaves what
stands behind them. -/
def ReadsTerm (us : List Token) (e : Expression) : Prop :=
  ∀ ⦃finish n : Nat⦄ ⦃ps rest : List Placed⦄, e.nesting < n → ps.map Placed.token = us →
    term finish n (ps ++ rest) = .ok (e, rest)

/-- The reader of conjunctions finds the expression and goes on behind it. -/
def ReadsAnd (us : List Token) (e : Expression) : Prop :=
  ∀ ⦃finish n : Nat⦄ ⦃ps rest : List Placed⦄, e.nesting < n → ps.map Placed.token = us →
    chain .and (term finish n) (ps ++ rest) = chainFrom .and (term finish n) e rest

/-- The reader of disjunctions finds the expression and goes on behind it. -/
def ReadsOr (us : List Token) (e : Expression) : Prop :=
  ∀ ⦃finish n : Nat⦄ ⦃ps rest : List Placed⦄, e.nesting < n → ps.map Placed.token = us →
    Breaks .and rest →
    disjunction (term finish n) (ps ++ rest) =
      chainFrom .or (chain .and (term finish n)) e rest

variable {e : Expression}

theorem chain_of_operand {op : LogicalOperator} {operand : Reader} {ts rest : List Placed}
    (h : operand ts = .ok (e, rest)) : chain op operand ts = chainFrom op operand e rest := by
  rw [chain, h]

/-- One more operand of a chain. -/
theorem chainFrom_operand {op : LogicalOperator} {operand : Reader} {w : String} {o : Nat}
    {rest : List Placed} {left right : Expression} (hw : sameFold w op.keyword = true)
    (hps : ps ≠ []) (hright : operand (ps ++ rest) = .ok (right, rest)) :
    chainFrom op operand left (⟨.word w, o⟩ :: (ps ++ rest)) =
      chainFrom op operand (.logical op left right) rest := by
  have hlt : rest.length < (ps ++ rest).length := by
    have := List.length_pos_iff.mpr hps
    rw [List.length_append]
    omega
  have hkeyword : (Token.word w).isKeyword op.keyword = true := hw
  rw [chainFrom, if_pos hkeyword, hright]
  exact if_pos hlt

/-- No conjunction goes on with `or`. -/
theorem breaks_or {w : String} (hw : sameFold w "or" = true) (o : Nat) (rest : List Placed) :
    Breaks .and (⟨.word w, o⟩ :: rest) := by
  rintro t ht
  obtain rfl : ⟨.word w, o⟩ = t := Option.some.inj ht
  have hfold : foldCase w.toList = foldCase "or".toList := eq_of_beq hw
  show (foldCase w.toList == foldCase "and".toList) = false
  rw [hfold]
  decide

theorem ReadsTerm.readsAnd (h : ReadsTerm us e) : ReadsAnd us e :=
  fun _ _ _ _ hn hps => chain_of_operand (h hn hps)

/-- A conjunction is complete where no `and` follows. -/
theorem ReadsAnd.closed (h : ReadsAnd us e) {finish n : Nat} {rest : List Placed}
    (hn : e.nesting < n) (hps : ps.map Placed.token = us) (hrest : Breaks .and rest) :
    chain .and (term finish n) (ps ++ rest) = .ok (e, rest) :=
  (h hn hps).trans (chainFrom_of_breaks _ _ hrest)

theorem ReadsAnd.readsOr (h : ReadsAnd us e) : ReadsOr us e :=
  fun _ _ _ _ hn hps hrest => chain_of_operand (h.closed hn hps hrest)

/-- A disjunction is complete before a closing bracket and at the end. -/
theorem ReadsOr.closed (h : ReadsOr us e) {finish n : Nat} {rest : List Placed}
    (hn : e.nesting < n) (hps : ps.map Placed.token = us) (hrest : ∀ op, Breaks op rest) :
    disjunction (term finish n) (ps ++ rest) = .ok (e, rest) :=
  (h hn hps (hrest .and)).trans (chainFrom_of_breaks _ _ (hrest .or))

theorem breaks_of_bracket {close : Token} (hclose : close = .rightParen ∨ close = .rightBracket)
    (o : Nat) (rest : List Placed) (op : LogicalOperator) : Breaks op (⟨close, o⟩ :: rest) := by
  rintro t ht
  obtain rfl : ⟨close, o⟩ = t := Option.some.inj ht
  rcases hclose with rfl | rfl <;> rfl

/-! ## Terms -/

/-- A level of nesting is left for a term that encloses another. -/
theorem exists_level {k n : Nat} (h : k < n) : ∃ m, n = m + 1 :=
  Nat.exists_eq_succ_of_ne_zero (Nat.ne_zero_of_lt h)

theorem readsTerm_not {w : String} (hw : sameFold w "not" = true) (h : ReadsTerm us e) :
    ReadsTerm (.word w :: us) (.not e) := by
  intro finish n ps rest hn hps
  obtain ⟨o, qs, rfl, hqs⟩ := exists_placed_cons hps
  obtain ⟨n, rfl⟩ := exists_level hn
  rw [List.cons_append, term, if_pos hw, h (Nat.lt_of_succ_lt_succ hn) hqs]
  rfl

/-- An expression up to the bracket that closes it. -/
theorem ReadsOr.bracketed (h : ReadsOr us e) {finish n : Nat} (hn : e.nesting < n)
    (hps : ps.map Placed.token = us) {close : Token}
    (hclose : close = .rightParen ∨ close = .rightBracket) (wrap : Expression → Expression)
    (fault : Fault) (opening : Placed) (o : Nat) (rest : List Placed) :
    (disjunction (term finish n) (ps ++ ⟨close, o⟩ :: rest) >>= fun p =>
        readClose close fault opening p.2 >>= fun rest => .ok (wrap p.1, rest)) =
      .ok (wrap e, rest) := by
  have hinner : disjunction (term finish n) (ps ++ ⟨close, o⟩ :: rest) =
      .ok (e, ⟨close, o⟩ :: rest) := h.closed hn hps (breaks_of_bracket hclose o rest)
  rw [hinner]
  show (readClose close fault opening (⟨close, o⟩ :: rest) >>= fun rest =>
    .ok (wrap e, rest)) = _
  rw [Expression.readClose_close]
  rfl

theorem readsTerm_group (h : ReadsOr us e) :
    ReadsTerm (.leftParen :: (us ++ [.rightParen])) (.group e) := by
  intro finish n ps rest hn hps
  obtain ⟨o, qs, o', rfl, hqs⟩ := exists_placed_enclosed hps
  obtain ⟨n, rfl⟩ := exists_level hn
  rw [List.cons_append, List.append_assoc, List.singleton_append, term]
  exact h.bracketed (Nat.lt_of_succ_lt_succ hn) hqs (.inl rfl) .group .unclosedParen
    ⟨.leftParen, o⟩ o' rest

theorem readsTerm_valuePath {path : String} (hfree : isReserved path = false)
    (h : ReadsOr us e) :
    ReadsTerm (.word path :: .leftBracket :: (us ++ [.rightBracket])) (.valuePath path e) := by
  intro finish n ps rest hn hps
  obtain ⟨o, qs, rfl, hqs⟩ := exists_placed_cons hps
  obtain ⟨o', rs, o'', rfl, hrs⟩ := exists_placed_enclosed hqs
  obtain ⟨n, rfl⟩ := exists_level hn
  rw [List.cons_append, List.cons_append, List.append_assoc, List.singleton_append,
    term_word hfree, readAttribute]
  exact h.bracketed (Nat.lt_of_succ_lt_succ hn) hrs (.inr rfl) (.valuePath path) .unclosedBracket
    ⟨.leftBracket, o'⟩ o'' rest

theorem readsTerm_present {path w : String} (hfree : isReserved path = false)
    (hw : CompareOperator.ofKeyword? w = some .pr) :
    ReadsTerm [.word path, .word w] (.compare (.present path)) := by
  intro finish n ps rest hn hps
  obtain ⟨o, qs, rfl, hqs⟩ := exists_placed_cons hps
  obtain ⟨o', rfl⟩ := exists_placed_singleton hqs
  obtain ⟨n, rfl⟩ := exists_level hn
  rw [List.cons_append, List.singleton_append, term_word hfree, readAttribute, hw]

theorem readsTerm_compare {path w : String} {op : CompareOperator} {v : Value}
    (hfree : isReserved path = false) (hw : CompareOperator.ofKeyword? w = some op)
    (hop : op ≠ .pr) (h : SpellsValue op us v) :
    ReadsTerm (.word path :: .word w :: us) (.compare (.with path op v)) := by
  intro finish n ps rest hn hps
  obtain ⟨o, qs, rfl, hqs⟩ := exists_placed_cons hps
  obtain ⟨o', rs, rfl, hrs⟩ := exists_placed_cons hqs
  obtain ⟨n, rfl⟩ := exists_level hn
  have hvalue := readValue_of_spells h hrs ⟨.word w, o'⟩ rest
  rw [List.cons_append, List.cons_append, term_word hfree, readAttribute, hw]
  -- only `pr` is read in a way of its own
  cases op <;> first | exact absurd rfl hop | (dsimp only; rw [hvalue]; rfl)

/-! ## Derivations -/

theorem SpellsTerm.ne_nil (h : SpellsTerm us e) : us ≠ [] := by
  cases h <;> exact List.cons_ne_nil _ _

theorem SpellsAnd.ne_nil (h : SpellsAnd us e) : us ≠ [] := by
  cases h with
  | term inner => exact inner.ne_nil
  | and => exact List.append_ne_nil_of_right_ne_nil _ (List.cons_ne_nil _ _)

theorem ne_nil_of_map (hps : ps.map Placed.token = us) (h : us ≠ []) : ps ≠ [] := by
  rintro rfl
  exact h hps.symm

/-- Tokens on both sides of a word. -/
theorem exists_placed_joined {vs : List Token} {w : String}
    (h : ps.map Placed.token = us ++ .word w :: vs) :
    ∃ qs o rs, ps = qs ++ ⟨.word w, o⟩ :: rs ∧ qs.map Placed.token = us ∧
      rs.map Placed.token = vs := by
  obtain ⟨qs, tail, rfl, hqs, htail⟩ := List.map_eq_append_iff.mp h
  obtain ⟨o, rs, rfl, hrs⟩ := exists_placed_cons htail
  exact ⟨qs, o, rs, rfl, hqs, hrs⟩

mutual

/-- The readers follow the grammar: a derived term is found. -/
theorem SpellsTerm.reads {us : List Token} {e : Expression} (h : SpellsTerm us e) :
    ReadsTerm us e := by
  match h with
  | .not hw inner => exact readsTerm_not hw inner.reads
  | .group inner => exact readsTerm_group inner.reads
  | .valuePath hfree inner => exact readsTerm_valuePath hfree inner.reads
  | .present hfree hw => exact readsTerm_present hfree hw
  | .compare hfree hw hop hvalue => exact readsTerm_compare hfree hw hop hvalue

/-- A derived conjunction is found. -/
theorem SpellsAnd.reads {us : List Token} {e : Expression} (h : SpellsAnd us e) :
    ReadsAnd us e := by
  match h with
  | .term inner => exact inner.reads.readsAnd
  | .and first hw last =>
    intro finish n ps rest hn hps
    obtain ⟨hleft, hright⟩ := Nat.max_lt.mp hn
    obtain ⟨qs, o, rs, rfl, hqs, hrs⟩ := exists_placed_joined hps
    rw [List.append_assoc, List.cons_append, first.reads hleft hqs]
    exact chainFrom_operand hw (ne_nil_of_map hrs last.ne_nil) (last.reads hright hrs)

/-- A derived disjunction is found. -/
theorem SpellsOr.reads {us : List Token} {e : Expression} (h : SpellsOr us e) :
    ReadsOr us e := by
  match h with
  | .and inner => exact inner.reads.readsOr
  | .or first hw last =>
    intro finish n ps rest hn hps hrest
    obtain ⟨hleft, hright⟩ := Nat.max_lt.mp hn
    obtain ⟨qs, o, rs, rfl, hqs, hrs⟩ := exists_placed_joined hps
    rw [List.append_assoc, List.cons_append, first.reads hleft hqs (breaks_or hw o _)]
    exact chainFrom_operand hw (ne_nil_of_map hrs last.ne_nil)
      (last.reads.closed hright hrs hrest)

end

/-- All tokens are read, when none stand behind those of the expression. -/
theorem SpellsOr.disjunction_eq (h : SpellsOr us e) (finish : Nat) {n : Nat}
    (hn : e.nesting < n) (hps : ps.map Placed.token = us) :
    disjunction (term finish n) ps = .ok (e, []) := by
  have hread : disjunction (term finish n) (ps ++ []) = .ok (e, []) :=
    h.reads.closed hn hps breaks_nil
  rwa [List.append_nil] at hread

/-- Tokens spell at most one expression. -/
theorem SpellsOr.eq_of_spells {e' : Expression} (h : SpellsOr us e) (h' : SpellsOr us e') :
    e = e' := by
  have hps : (us.map (Placed.mk · 0)).map Placed.token = us := by
    rw [List.map_map]
    exact List.map_id us
  have hread := h.disjunction_eq 0 (Nat.lt_succ_of_le (Nat.le_max_left e.nesting e'.nesting)) hps
  have hread' := h'.disjunction_eq 0 (Nat.lt_succ_of_le (Nat.le_max_right e.nesting e'.nesting)) hps
  rw [hread] at hread'
  exact (Prod.mk.inj (Except.ok.inj hread')).1

theorem parseTokens_of_spells {finish : Nat} {ts : List Placed}
    (h : SpellsOr (ts.map Placed.token) e) (hnesting : e.nesting < maxNesting)
    (hdepth : e.depth ≤ Expression.maxDepth) : parseTokens finish ts = .ok e := by
  unfold parseTokens
  rw [h.disjunction_eq finish hnesting rfl]
  exact if_pos (by rwa [e.deepestLevel_eq_depth])

/-- A text is read as what its tokens spell, if that keeps the bounds. -/
theorem Expression.parse_eq_ok_iff_of_lexes {text : String} {f : Expression}
    (hlex : Lexes text.toList us) (hspells : SpellsOr us e) :
    Expression.parse text = .ok f ↔ f = e ∧ e.nesting < maxNesting ∧ e.depth ≤ maxDepth := by
  obtain ⟨ts, hts, hus⟩ := map_eq_ok.mp (hlex 0)
  subst hus
  constructor
  · intro h
    obtain ⟨ts', hts', hf, hbounds⟩ := spells_of_parse h
    obtain rfl : ts = ts' := Except.ok.inj (hts.symm.trans hts')
    obtain rfl := hf.eq_of_spells hspells
    exact ⟨rfl, hbounds⟩
  · rintro ⟨rfl, hnesting, hdepth⟩
    exact bind_eq_ok.mpr ⟨ts, hts, parseTokens_of_spells hspells hnesting hdepth⟩

/-- A text is read as an expression exactly if it can be cut into tokens, the
grammar derives the expression from all of them, and neither the terms around a
term nor the depth of the expression exceed their bounds. The grammar derives no
other expression from them. -/
theorem Expression.parse_eq_ok_iff (text : String) (e : Expression) :
    (Expression.parse text = .ok e ↔
      ∃ ts, tokenize text = .ok ts ∧ SpellsOr (ts.map Placed.token) e ∧
        e.nesting < maxNesting ∧ e.depth ≤ maxDepth) ∧
      ∀ us e', SpellsOr us e → SpellsOr us e' → e = e' := by
  refine ⟨⟨spells_of_parse, ?_⟩, fun us e' h h' => h.eq_of_spells h'⟩
  rintro ⟨ts, hts, hspells, hnesting, hdepth⟩
  exact bind_eq_ok.mpr ⟨ts, hts, parseTokens_of_spells hspells hnesting hdepth⟩

end PolicyDialects.Filter
