import PolicyDialects.Proofs.Filter.Completeness

/-!
# Printed filters stay as they are

A filter that was read has words for paths, values where they belong, and the
nesting of the grammar. So its text is read again, and what is read prints the
same. The only thing the text adds are the parentheses after `not`, which count
as terms of their own.

Results:

* `isUnbroken_of_tokenize`: the words of a text hold no delimiter.
* `isWellFormed_of_parse`, `isLegible_of_parse`: what is read can be printed
  and read.
* `Expression.text_enclosed`: the parentheses that reading finds do not change
  the text.
* `Expression.text_stable`: a printed filter is read exactly if its enclosed
  form keeps the bounds, and it prints as it was printed before.
-/

namespace PolicyDialects.Filter

open Text

/-! ## Words of a text -/

/-- Every word token holds a word. -/
def AllUnbroken (ps : List Placed) : Prop :=
  ∀ p ∈ ps, ∀ w, p.token = .word w → IsUnbroken w

theorem allUnbroken_cons {p : Placed} {ps : List Placed}
    (hp : ∀ w, p.token = .word w → IsUnbroken w) (hps : AllUnbroken ps) :
    AllUnbroken (p :: ps) := by
  intro q hq
  rcases List.mem_cons.mp hq with rfl | hq
  · exact hp
  · exact hps q hq

theorem yields_tokenizeFrom (offset : Nat) (cs : List Char) :
    Yields AllUnbroken (tokenizeFrom offset cs) := by
  -- a mark or a literal in front of tokens that were read
  have hfront : ∀ {r : Except PolicyError (List Placed)} (p : Placed),
      (∀ w, p.token = .word w → IsUnbroken w) → Yields AllUnbroken r →
      Yields AllUnbroken (r.map (p :: ·)) :=
    fun p hp hr => hr.map fun ps hps => allUnbroken_cons hp hps
  fun_induction tokenizeFrom offset cs with
  | case1 => exact .ok (fun p hp => absurd hp (by simp))
  | case2 offset c cs next hblank ih => exact ih
  | case3 _ _ _ _ _ ih | case4 _ _ _ _ _ _ ih | case5 _ _ _ _ _ _ _ ih
  | case6 _ _ _ _ _ _ _ _ ih | case7 _ _ _ _ _ _ _ _ _ ih =>
    exact hfront _ (by simp) ih
  | case8 => exact .error _
  | case9 _ _ s rest _ _ _ _ _ _ _ _ _ _ ih => exact hfront _ (by simp) ih
  | case10 offset c cs next hblank h1 h2 h3 h4 h5 h6 tail rest _ _ ih =>
    refine hfront _ (fun w hw => ?_) ih
    obtain rfl : String.ofList (c :: tail) = w := Token.word.inj hw
    have hc : isDelimiter c = false := by
      simp [isDelimiter, hblank, h1, h2, h3, h4, h5, h6]
    refine ⟨by simp, fun x hx => ?_⟩
    rw [String.toList_ofList] at hx
    rcases List.mem_cons.mp hx with rfl | hx
    · exact hc
    · simpa using List.all_eq_true.mp List.all_takeWhile x hx

/-- The words of a text hold no delimiter. -/
theorem isUnbroken_of_tokenize {text : String} {ps : List Placed} {w : String}
    (h : tokenize text = .ok ps) (hw : Token.word w ∈ ps.map Placed.token) : IsUnbroken w := by
  obtain ⟨p, hp, htoken⟩ := List.mem_map.mp hw
  exact yields_tokenizeFrom 0 text.toList ps h p hp w htoken

/-! ## Parts of what is read -/

theorem Value.isList_ofWord (w : String) : (ofWord w).isList = false := by
  unfold ofWord
  dsimp only
  split_ifs
  · rfl
  · rfl
  · split <;> rfl
  · split <;> rfl
  · rfl

theorem isList_of_itemValue? {t : Token} {v : Value} (h : itemValue? t = some v) :
    v.isList = false := by
  unfold itemValue? at h
  split at h
  · rw [← Option.some.inj h]
    rfl
  · rw [← Option.some.inj h]
    exact Value.isList_ofWord _
  · cases h

theorem SpellsItems.isList {ts : List Token} {vs : List Value} (h : SpellsItems ts vs) :
    ∀ v ∈ vs, v.isList = false := by
  induction h with
  | one item => simpa using isList_of_itemValue? item
  | more item _ ih => exact List.forall_mem_cons.mpr ⟨isList_of_itemValue? item, ih⟩

theorem SpellsValue.suits {op : CompareOperator} {ts : List Token} {v : Value}
    (h : SpellsValue op ts v) : v.Suits op := by
  match h with
  | .literal s => trivial
  | .word _ => exact Value.suits_of_isList (Value.isList_ofWord _) op
  | .noItems hop => exact ⟨hop, by simp⟩
  | .items hop hitems => exact ⟨hop, hitems.isList⟩

/-- Every word among the tokens holds no delimiter. -/
def WordsUnbroken (ts : List Token) : Prop := ∀ w, Token.word w ∈ ts → IsUnbroken w

theorem WordsUnbroken.mono {ts us : List Token} (h : WordsUnbroken us) (hsub : ts ⊆ us) :
    WordsUnbroken ts :=
  fun w hw => h w (hsub hw)

mutual

/-- A term of the grammar has paths and values where they belong. -/
theorem SpellsTerm.parts {ts : List Token} {e : Expression} (h : SpellsTerm ts e)
    (hwords : WordsUnbroken ts) : e.IsWellFormed ∧ e.IsLegible := by
  match h with
  | .not _ inner => exact inner.parts (hwords.mono (List.subset_cons_self _ _))
  | .group inner => exact inner.parts (hwords.mono (by simp))
  | .valuePath hfree inner =>
    obtain ⟨hwell, hlegible⟩ := inner.parts (hwords.mono fun t ht => by simp [ht])
    exact ⟨⟨hwords _ (by simp), hwell⟩, hfree, hlegible⟩
  | .present hfree _ =>
    exact ⟨⟨hwords _ (by simp [Comparison.present]), by simp [Comparison.present]⟩, hfree,
      by simp [Comparison.present]⟩
  | .compare (v := v) hfree _ hop hvalue =>
    refine ⟨⟨hwords _ (by simp [Comparison.with]), by simp [Comparison.with, hop]⟩, hfree, ?_⟩
    intro w hw
    obtain rfl : v = w := Option.some.inj hw
    exact hvalue.suits

/-- So has a conjunction of terms. -/
theorem SpellsAnd.parts {ts : List Token} {e : Expression} (h : SpellsAnd ts e)
    (hwords : WordsUnbroken ts) : e.IsWellFormed ∧ e.IsLegible := by
  match h with
  | .term inner => exact inner.parts hwords
  | .and first _ last =>
    obtain ⟨hl, hl'⟩ := first.parts (hwords.mono (by simp))
    obtain ⟨hr, hr'⟩ := last.parts (hwords.mono (by simp))
    exact ⟨⟨hl, hr⟩, hl', hr'⟩

/-- So has a disjunction of conjunctions. -/
theorem SpellsOr.parts {ts : List Token} {e : Expression} (h : SpellsOr ts e)
    (hwords : WordsUnbroken ts) : e.IsWellFormed ∧ e.IsLegible := by
  match h with
  | .and inner => exact inner.parts hwords
  | .or first _ last =>
    obtain ⟨hl, hl'⟩ := first.parts (hwords.mono (by simp))
    obtain ⟨hr, hr'⟩ := last.parts (hwords.mono (by simp))
    exact ⟨⟨hl, hr⟩, hl', hr'⟩

end

section

variable {text : String} {e : Expression}

theorem parts_of_parse (h : Expression.parse text = .ok e) : e.IsWellFormed ∧ e.IsLegible := by
  obtain ⟨ts, hts, hspells, -⟩ := spells_of_parse h
  exact hspells.parts fun w hw => isUnbroken_of_tokenize hts hw

/-- What is read has words for paths, and the values that its operators take. -/
theorem isWellFormed_of_parse (h : Expression.parse text = .ok e) : e.IsWellFormed :=
  (parts_of_parse h).1

/-- No path that is read is a keyword, and lists stand only after `in`. -/
theorem isLegible_of_parse (h : Expression.parse text = .ok e) : e.IsLegible :=
  (parts_of_parse h).2

end

namespace Expression

theorem IsGrammatical.orsApart {e : Expression} (h : e.IsGrammatical) : e.OrsApart := by
  induction e with
  | compare c => trivial
  | logical op left right ihl ihr =>
    cases op with
    | and =>
      obtain ⟨hleft, hright, hgl, hgr⟩ := h
      exact ⟨fun _ => ⟨hleft, isOr_of_isLogical_eq_false hright⟩, ihl hgl, ihr hgr⟩
    | or =>
      obtain ⟨-, hgl, hgr⟩ := h
      exact ⟨by simp, ihl hgl, ihr hgr⟩
  | not inner ih => exact ih h.2
  | group inner ih => exact ih h
  | valuePath path filter ih => exact ih h

/-! ## Parentheses after `not` -/

theorem isLogical_enclosed (e : Expression) : e.enclosed.isLogical = e.isLogical :=
  enclosed_induction (motive := fun e r => r.isLogical = e.isLogical) (fun _ => rfl)
    (fun _ _ _ _ _ => rfl) (fun _ _ => rfl) (fun _ _ => rfl) (fun _ _ => rfl) (fun _ _ _ => rfl) e

/-- The parentheses that are written after `not` do not change the text when
they are read. -/
theorem text_enclosed (e : Expression) : e.enclosed.text = e.text := by
  have hnot : ∀ inner : Expression, inner.enclosed.text = inner.text →
      (Expression.not (.group inner.enclosed)).text =
        (if inner.isLogical then "not (" else "not(") ++ inner.text ++ ")" := by
    intro inner ih
    rw [text_not]
    show (if inner.enclosed.isLogical then "not (" else "not(") ++ inner.enclosed.text ++ ")" = _
    rw [isLogical_enclosed, ih]
  fun_induction enclosed e with
  | case1 c => rfl
  | case2 op left right ihl ihr => rw [text, text, ihl, ihr]
  | case3 inner ih =>
    rw [hnot inner ih, text_not]
    rfl
  | case4 inner hne ih =>
    have hinner : inner.unparenthesized = inner := by
      cases inner with
      | group i => exact absurd rfl (hne i)
      | _ => rfl
    rw [hnot inner ih, text_not, hinner]
  | case5 inner ih => rw [text, text, ih]
  | case6 path filter ih => rw [text, text, ih]

theorem text_attach (op : LogicalOperator) (left e : Expression) :
    (attach op left e).text = (Expression.logical op left e).text := by
  refine attach_induction (motive := fun e r => r.text = (Expression.logical op left e).text)
    (fun a b ih => ?_) (fun e _ => rfl) e
  simp only [text, String.append_assoc] at ih ⊢
  rw [ih]
  simp only [String.append_assoc]

/-- How chains are nested does not show in the text. -/
theorem text_leftNested (e : Expression) : e.leftNested.text = e.text := by
  induction e using operandInduction with
  | compare c => rfl
  | logical op left right ihl ihr => rw [leftNested_logical, text_attach, text, ihl, ihr, text]
  | not inner ih =>
    rw [leftNested, text_not, text_not, unparenthesized_leftNested, isLogical_leftNested, ih]
  | group inner ih => rw [leftNested, text, ih, text]
  | valuePath path filter ih => rw [leftNested, text, ih, text]

/-- What the grammar nests stays so with parentheses after every `not`. -/
theorem isGrammatical_enclosed {e : Expression} (h : e.IsGrammatical) :
    e.enclosed.IsGrammatical := by
  refine enclosed_induction (motive := fun e r => e.IsGrammatical → r.IsGrammatical)
    (fun _ _ => trivial) ?_ (fun _ ih hi => ⟨rfl, ih hi.2⟩) (fun _ ih hi => ⟨rfl, ih hi.2⟩)
    (fun _ ih => ih) (fun _ _ ih => ih) e h
  intro op left right ihl ihr he
  cases op with
  | and =>
    obtain ⟨hleft, hright, hgl, hgr⟩ := he
    exact ⟨(isOr_enclosed left).trans hleft, (isLogical_enclosed right).trans hright, ihl hgl,
      ihr hgr⟩
  | or =>
    obtain ⟨hright, hgl, hgr⟩ := he
    exact ⟨(isOr_enclosed right).trans hright, ihl hgl, ihr hgr⟩

theorem canonical_eq_enclosed {e : Expression} (h : e.IsGrammatical) : e.canonical = e.enclosed :=
  leftNested_eq_self (isGrammatical_enclosed h)

/-! ## Stability -/

/-- What the text of a filter that was read is read as. -/
theorem parse_text_of_parse {text : String} {e f : Expression} (h : Expression.parse text = .ok e) :
    Expression.parse e.text = .ok f ↔ f = e.enclosed.reread ∧
      e.enclosed.nesting < maxNesting ∧ e.enclosed.depth ≤ maxDepth := by
  have hgrammatical := isGrammatical_of_parse h
  rw [parse_text_eq_ok_iff (isWellFormed_of_parse h) (isLegible_of_parse h)
    hgrammatical.orsApart, canonical_eq_enclosed hgrammatical]

/-- A filter that was read prints as a text that is read again, if the
parentheses that the text has after each `not` keep the bounds of the reader;
and with finite doubles the text does not change any more. -/
theorem text_stable {text : String} {e : Expression} (h : Expression.parse text = .ok e) :
    ((∃ f, Expression.parse e.text = .ok f) ↔
        e.enclosed.nesting < maxNesting ∧ e.enclosed.depth ≤ maxDepth) ∧
      (e.FloatsFinite → ∀ f, Expression.parse e.text = .ok f → f = e.enclosed ∧ f.text = e.text) := by
  constructor
  · constructor
    · rintro ⟨f, hf⟩
      exact ((parse_text_of_parse h).mp hf).2
    · intro hbounds
      exact ⟨_, (parse_text_of_parse h).mpr ⟨rfl, hbounds⟩⟩
  · intro hfinite f hf
    have hself : e.enclosed.reread = e.enclosed := reread_eq_self ((each_enclosed e).mpr hfinite)
    obtain rfl : f = e.enclosed := (((parse_text_of_parse h).mp hf).1).trans hself
    exact ⟨rfl, text_enclosed e⟩

/-- `NOT a eq 05 and b in [x, TRUE]`, as it is read. -/
def loose : Expression :=
  .and (.not (.compare (.with "a" .eq (.integer 5))))
    (.compare (.with "b" .in (.list [.string "x", .boolean true])))

theorem text_stable_loose :
    Expression.parse "NOT a eq 05 and b in [x, TRUE]" = .ok loose ∧
      loose.text = "not(a eq 5) and b in [\"x\", true]" ∧ loose.FloatsFinite ∧
      ∃ f, Expression.parse loose.text = .ok f ∧ f.text = loose.text := by
  have hparse : Expression.parse "NOT a eq 05 and b in [x, TRUE]" = .ok loose := by
    decide +kernel
  have hfinite : loose.FloatsFinite := by decide
  obtain ⟨hread, hsame⟩ := text_stable hparse
  obtain ⟨f, hf⟩ := hread.mpr (by decide)
  exact ⟨hparse, by decide +kernel, hfinite, f, hf, (hsame hfinite f hf).2⟩

/-- `not` in front of `a pr`, a number of times. -/
def nots : Nat → String
  | 0 => "a pr"
  | n + 1 => "not " ++ nots n

/-- The negations of `a pr`. -/
def negations : Nat → Expression
  | 0 => .compare (.present "a")
  | n + 1 => .not (negations n)

theorem nesting_negations (n : Nat) : (negations n).nesting = n := by
  induction n with
  | zero => rfl
  | succ n ih => exact congrArg (· + 1) ih

theorem depth_negations (n : Nat) : (negations n).depth = n + 1 := by
  induction n with
  | zero => rfl
  | succ n ih => exact congrArg (· + 1) ih

/-- In the enclosed form each negation has its own parentheses. -/
theorem enclosed_negations (n : Nat) :
    (negations (n + 1)).enclosed = .not (.group (negations n).enclosed) := by
  cases n <;> rfl

theorem nesting_enclosed_negations (n : Nat) : (negations n).enclosed.nesting = 2 * n := by
  induction n with
  | zero => rfl
  | succ n ih =>
    rw [enclosed_negations]
    show (negations n).enclosed.nesting + 1 + 1 = 2 * (n + 1)
    omega

theorem parse_nots {n : Nat} (h : n < maxNesting) : Expression.parse (nots n) = .ok (negations n) := by
  have htokens : ∃ us, Lexes (nots n).toList us ∧ SpellsTerm us (negations n) := by
    clear h
    induction n with
    | zero =>
      have hpr := lexes_word (w := "pr") (by decide) (stops_nil _) lexes_nil
      have ha := lexes_word (w := "a") (by decide) (endsWord_cons (by decide) _)
        (lexes_blank (c := ' ') (by decide) hpr)
      exact ⟨_, ha, .present (by decide) (by decide)⟩
    | succ n ih =>
      obtain ⟨us, hlex, hspells⟩ := ih
      have hnot := lexes_word (w := "not") (by decide) (endsWord_cons (by decide) _)
        (lexes_blank (c := ' ') (by decide) hlex)
      refine ⟨.word "not" :: us, ?_, .not (by decide) hspells⟩
      rw [nots, String.toList_append]
      exact hnot
  obtain ⟨us, hlex, hspells⟩ := htokens
  refine (parse_eq_ok_iff_of_lexes hlex (.and (.term hspells))).mpr ⟨rfl, ?_, ?_⟩
  · rw [nesting_negations]
    exact h
  · rw [depth_negations]
    unfold maxNesting at h
    unfold maxDepth
    omega

/-- With the parentheses that printing adds, 64 negations are 128 terms around
`a pr`; and the infinite double that `1e999` is prints as a word that is a
string. -/
theorem text_unstable :
    (Expression.parse (nots 64) = .ok (negations 64) ∧
        ∀ f, Expression.parse (negations 64).text ≠ .ok f) ∧
      ∃ e f, Expression.parse "a eq 1e999" = .ok e ∧ Expression.parse e.text = .ok f ∧
        f.text ≠ e.text := by
  have hparse : Expression.parse (nots 64) = .ok (negations 64) := parse_nots (by decide)
  refine ⟨⟨hparse, fun f hf => ?_⟩, .compare (.with "a" .eq (.float (.infinite false))),
    .compare (.with "a" .eq (.string "inf")), by decide +kernel, by decide +kernel,
    by decide +kernel⟩
  have hnesting := ((parse_text_of_parse hparse).mp hf).2.1
  rw [nesting_enclosed_negations] at hnesting
  exact absurd hnesting (by decide)

end Expression

end PolicyDialects.Filter
