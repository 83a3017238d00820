import PolicyDialects.Filter.Parser
import PolicyDialects.Proofs.Filter.Reread

/-!
# Reading the tokens of an expression

The reader of terms, conjunctions and disjunctions, run on the tokens of an
expression with other tokens behind them. It returns what the tokens are read
as, nested as in the grammar, and leaves the tokens behind, or it fails; and it
fails exactly when a path is a keyword, a list stands where none may stand, or
too many terms enclose one another.

Results:

* `readValue_tokens`: the value after an operator.
* `readAtLevels`: the tokens of an expression, at the level of the grammar that it
  belongs to.
* `answers_parse_text`: a printed expression is read as its canonical form, but
  for doubles that are no numbers, or not at all; `parse_text` for finite
  doubles.
* `parse_text_eq_ok_iff`, `isLegible_of_parse_text`: the same from what was
  read.
-/

namespace PolicyDialects.Filter

open Text

/-! ## Answers of readers -/

/-- The reader gives the answer when `good` holds, and fails otherwise. -/
def Answers {ε α : Type} (good : Prop) (reply answer : Except ε α) : Prop :=
  (good → reply = answer) ∧ (¬good → ∃ e, reply = .error e)

namespace Answers

variable {ε α β : Type} {good good' : Prop} {reply answer : Except ε α}

theorem congr (h : Answers good reply answer) (hiff : good ↔ good') :
    Answers good' reply answer :=
  ⟨fun hg => h.1 (hiff.mpr hg), fun hg => h.2 fun h' => hg (hiff.mp h')⟩

theorem refuse {e : ε} (hbad : ¬good) (h : reply = .error e) : Answers good reply answer :=
  ⟨fun hg => absurd hg hbad, fun _ => ⟨e, h⟩⟩

theorem answer_eq {answer' : Except ε α} (h : Answers good reply answer) (heq : answer = answer') :
    Answers good reply answer' := heq ▸ h

/-- A reply that is no failure is the answer. -/
theorem eq_of_ok {a b : α} (h : Answers good reply (.ok a)) (hb : reply = .ok b) :
    good ∧ b = a := by
  by_cases hg : good
  · exact ⟨hg, Except.ok.inj (hb.symm.trans (h.1 hg))⟩
  · obtain ⟨e, he⟩ := h.2 hg
    rw [hb] at he
    cases he

/-- A reader and what is made of its answer. -/
theorem andThen {a : α} {k : α → Except ε β} {result : Except ε β}
    (h : Answers good reply (.ok a)) (hk : k a = result) :
    Answers good (reply >>= k) result := by
  constructor
  · intro hg; rw [h.1 hg]; exact hk
  · intro hg
    obtain ⟨e, he⟩ := h.2 hg
    exact ⟨e, by rw [he]; rfl⟩

/-- An answer that is the reply of another reader. -/
theorem trans {last : Except ε α} (h : Answers good reply answer)
    (hlast : Answers good' answer last) : Answers (good ∧ good') reply last := by
  constructor
  · rintro ⟨hg, hg'⟩
    rw [h.1 hg, hlast.1 hg']
  · intro hbad
    by_cases hg : good
    · rw [h.1 hg]
      exact hlast.2 fun hg' => hbad ⟨hg, hg'⟩
    · exact h.2 hg

theorem map {a : α} {f : α → β} (h : Answers good reply (.ok a)) :
    Answers good (reply.map f) (.ok (f a)) := by
  constructor
  · intro hg; rw [h.1 hg]; rfl
  · intro hg
    obtain ⟨e, he⟩ := h.2 hg
    exact ⟨e, by rw [he]; rfl⟩

end Answers

/-! ## Values -/

/-- The tokens of two or more items. -/
theorem Value.itemTokens_cons (v : Value) (vs : List Value) :
    itemTokens (v :: vs) = v.tokens ++ vs.flatMap fun w => .comma :: w.tokens := by
  induction vs generalizing v with
  | nil => simp [itemTokens]
  | cons w vs ih => rw [itemTokens, ih, List.flatMap_cons, List.cons_append]

/-- A value is an item of one token, or a list. -/
theorem Value.exists_token (v : Value) :
    (v.isList = false ∧ ∃ t, v.tokens = [t] ∧ itemValue? t = some v.rereadItem) ∨
      ∃ items, v = .list items := by
  rcases v.tokens_cases with ⟨s, rfl⟩ | hw | hlist
  · exact .inl ⟨rfl, _, rfl, rfl⟩
  · refine .inl ⟨hw.isList, _, hw.tokens, congrArg some ?_⟩
    rw [hw.ofWord, reread_of_isList hw.isList]
  · exact .inr hlist

theorem readItems_comma {opening t : Placed} {o : Nat} {rest : List Placed} :
    readItems opening (⟨.comma, o⟩ :: t :: rest) =
      match itemValue? t.token with
      | some v => (readItems opening rest).map fun (vs, r) => (v :: vs, r)
      | none => .error (Fault.expectedItem.at t) :=
  readItems.eq_4 opening o t rest

/-- The items after the first one are read up to the closing bracket. -/
theorem readItems_tokens (opening : Placed) (o : Nat) (rest : List Placed) :
    ∀ {vs : List Value} {ps : List Placed},
      ps.map Placed.token = vs.flatMap (fun w => .comma :: w.tokens) →
      Answers (∀ v ∈ vs, v.isList = false) (readItems opening (ps ++ ⟨.rightBracket, o⟩ :: rest))
        (.ok (vs.map Value.rereadItem, rest)) := by
  intro vs
  induction vs with
  | nil =>
    intro ps hps
    obtain rfl : ps = [] := by simpa using hps
    exact ⟨fun _ => rfl, fun h => absurd (by simp) h⟩
  | cons v vs ih =>
    intro ps hps
    rw [List.flatMap_cons, List.cons_append] at hps
    obtain ⟨⟨t, oc⟩, ps', rfl, ht, hps'⟩ := List.map_eq_cons_iff.mp hps
    obtain rfl : t = .comma := ht
    rcases Value.exists_token v with ⟨hv, t, htokens, hitem⟩ | ⟨items, rfl⟩
    · rw [htokens, List.singleton_append] at hps'
      obtain ⟨p, ps'', rfl, rfl, hps''⟩ := List.map_eq_cons_iff.mp hps'
      have hrest := (ih hps'').map (f := fun (ws, r) => (v.rereadItem :: ws, r))
      rw [List.cons_append, List.cons_append, readItems_comma, hitem]
      exact hrest.congr (by simp [hv])
    · obtain ⟨p, ps'', rfl, hp, -⟩ := List.map_eq_cons_iff.mp hps'
      refine .refuse (by simp [Value.isList]) (e := Fault.expectedItem.at p) ?_
      rw [List.cons_append, List.cons_append, readItems_comma, hp]
      rfl

theorem readList_cons {opening t : Placed} {rest : List Placed} (ht : t.token ≠ .rightBracket) :
    readList opening (t :: rest) =
      match itemValue? t.token with
      | some v => (readItems opening rest).map fun (vs, r) => (v :: vs, r)
      | none => .error (Fault.expectedItem.at t) := by
  have hopens : ∀ o, t = ⟨.rightBracket, o⟩ → False := by
    rintro o rfl
    exact ht rfl
  exact readList.eq_3 opening t rest hopens

/-- A list is read after its opening bracket. -/
theorem readList_tokens (opening : Placed) (o : Nat) (rest : List Placed) {vs : List Value}
    {ps : List Placed} (hps : ps.map Placed.token = Value.itemTokens vs) :
    Answers (∀ v ∈ vs, v.isList = false) (readList opening (ps ++ ⟨.rightBracket, o⟩ :: rest))
      (.ok (vs.map Value.rereadItem, rest)) := by
  cases vs with
  | nil =>
    obtain rfl : ps = [] := by simpa [Value.itemTokens] using hps
    exact ⟨fun _ => rfl, fun h => absurd (by simp) h⟩
  | cons v vs =>
    rw [Value.itemTokens_cons] at hps
    rcases Value.exists_token v with ⟨hv, t, htokens, hitem⟩ | ⟨items, rfl⟩
    · rw [htokens, List.singleton_append] at hps
      obtain ⟨p, ps', rfl, rfl, hps'⟩ := List.map_eq_cons_iff.mp hps
      have hne : p.token ≠ .rightBracket := by
        intro h; rw [h] at hitem; cases hitem
      have hrest := (readItems_tokens opening o rest hps').map
        (f := fun (ws, r) => (v.rereadItem :: ws, r))
      rw [List.cons_append, readList_cons hne, hitem]
      exact hrest.congr (by simp [hv])
    · obtain ⟨p, ps', rfl, hp, -⟩ := List.map_eq_cons_iff.mp hps
      refine .refuse (by simp [Value.isList]) (e := Fault.expectedItem.at p) ?_
      rw [List.cons_append, readList_cons (by rw [hp]; simp), hp]
      rfl

/-- The value after an operator is read, unless it is a list out of place. -/
theorem readValue_tokens (op : CompareOperator) (t : Placed) (rest : List Placed) {v : Value}
    {ps : List Placed} (hps : ps.map Placed.token = v.tokens) :
    Answers (v.Suits op) (readValue op t (ps ++ rest)) (.ok (v.reread, rest)) := by
  rcases v.tokens_cases with ⟨s, rfl⟩ | hw | ⟨items, rfl⟩
  · obtain ⟨⟨_, o⟩, ps', rfl, rfl, hps'⟩ := List.map_eq_cons_iff.mp hps
    obtain rfl : ps' = [] := by simpa using hps'
    exact ⟨fun _ => rfl, fun h => absurd trivial h⟩
  · rw [hw.tokens] at hps
    obtain ⟨⟨_, o⟩, ps', rfl, rfl, hps'⟩ := List.map_eq_cons_iff.mp hps
    obtain rfl : ps' = [] := by simpa using hps'
    have hread : readValue op t ([⟨.word v.text, o⟩] ++ rest) = .ok (v.reread, rest) := by
      rw [List.singleton_append, readValue, hw.isReserved, if_neg Bool.false_ne_true, hw.ofWord]
    have hsuits := Value.suits_of_isList hw.isList op
    exact ⟨fun _ => hread, fun h => absurd hsuits h⟩
  · obtain ⟨⟨_, o⟩, ps', rfl, rfl, hps'⟩ := List.map_eq_cons_iff.mp hps
    obtain ⟨ps₁, ps₂, rfl, hitems, hclose⟩ := List.map_eq_append_iff.mp hps'
    obtain ⟨⟨_, o'⟩, ps₃, rfl, rfl, hps₃⟩ := List.map_eq_cons_iff.mp hclose
    obtain rfl : ps₃ = [] := by simpa using hps₃
    rw [List.cons_append, List.append_assoc, List.singleton_append, readValue]
    by_cases hop : op = .in
    · have hlist := (readList_tokens ⟨.leftBracket, o⟩ o' rest hitems).map
        (f := fun (ws, r) => (Value.list ws, r))
      rw [if_pos hop]
      exact hlist.congr (by simp [Value.Suits, hop])
    · rw [if_neg hop]
      exact .refuse (fun h => hop h.1) rfl

/-! ## Chains -/

/-- What may stand after an expression: nothing, a closing bracket, or a
logical operator. -/
def Follows (rest : List Placed) : Prop :=
  ∀ t ∈ rest.head?, t.token = .rightParen ∨ t.token = .rightBracket ∨
    ∃ op : LogicalOperator, t.token = .word op.keyword

theorem follows_nil : Follows [] := by simp [Follows]

/-- The tokens do not go on with an operator. -/
def Breaks (op : LogicalOperator) (rest : List Placed) : Prop :=
  ∀ t ∈ rest.head?, t.token.isKeyword op.keyword = false

theorem breaks_nil (op : LogicalOperator) : Breaks op [] := by simp [Breaks]

theorem chainFrom_of_breaks {op : LogicalOperator} (operand : Reader) (left : Expression)
    {rest : List Placed} (h : Breaks op rest) :
    chainFrom op operand left rest = .ok (left, rest) := by
  cases rest with
  | nil => rw [chainFrom]
  | cons t rest => rw [chainFrom, h t rfl, if_neg Bool.false_ne_true]

theorem Answers.chain {good : Prop} {op : LogicalOperator} {operand : Reader}
    {ts rest : List Placed} {e : Expression} (h : Answers good (operand ts) (.ok (e, rest))) :
    Answers good (Filter.chain op operand ts) (chainFrom op operand e rest) := by
  unfold Filter.chain
  constructor
  · intro hg; rw [h.1 hg]
  · intro hg
    obtain ⟨err, herr⟩ := h.2 hg
    exact ⟨err, by rw [herr]⟩

theorem isKeyword_keyword (op op' : LogicalOperator) :
    (Token.word op.keyword).isKeyword op'.keyword = decide (op = op') := by
  cases op <;> cases op' <;> decide

/-- One more operand of a chain. -/
theorem Answers.chainFrom {good : Prop} {operand : Reader} {ps rest : List Placed}
    {right : Expression} (h : Answers good (operand (ps ++ rest)) (.ok (right, rest)))
    (left : Expression) (o : Nat) (op : LogicalOperator) (hps : ps ≠ []) :
    Answers good (Filter.chainFrom op operand left (⟨.word op.keyword, o⟩ :: (ps ++ rest)))
      (Filter.chainFrom op operand (.logical op left right) rest) := by
  have hkeyword : (Token.word op.keyword).isKeyword op.keyword = true := by
    rw [isKeyword_keyword, decide_eq_true rfl]
  rw [Filter.chainFrom, if_pos hkeyword]
  constructor
  · intro hg
    have hlt : rest.length < (ps ++ rest).length := by
      have := List.length_pos_iff.mpr hps
      rw [List.length_append]; omega
    rw [h.1 hg]
    exact if_pos hlt
  · intro hg
    obtain ⟨err, herr⟩ := h.2 hg
    exact ⟨err, by rw [herr]⟩

/-! ## Keywords as paths -/

theorem isReserved_keyword (op : CompareOperator) : isReserved op.keyword = false := by
  cases op <;> decide

theorem ofKeyword?_keyword (op : CompareOperator) :
    CompareOperator.ofKeyword? op.keyword = some op := by
  cases op <;> decide

/-- A word that is no keyword starts a comparison or a value path. -/
theorem term_word {finish n o : Nat} {w : String} {rest : List Placed}
    (hw : isReserved w = false) :
    term finish (n + 1) (⟨.word w, o⟩ :: rest) =
      readAttribute (disjunction (term finish n)) w o rest := by
  simp only [isReserved, Bool.or_eq_false_iff] at hw
  rw [term, hw.2, hw.1]
  rfl

/-- What follows an expression is no operator and no value filter. -/
theorem readAttribute_follows {inner : Reader} {w : String} {o : Nat} {rest : List Placed}
    (h : Follows rest) : ∃ e, readAttribute inner w o rest = .error e := by
  cases rest with
  | nil => exact ⟨_, rfl⟩
  | cons t rest =>
    obtain ⟨token, o'⟩ := t
    rcases h _ rfl with h | h | ⟨op, h⟩
    · obtain rfl : token = .rightParen := h
      exact ⟨_, rfl⟩
    · obtain rfl : token = .rightBracket := h
      exact ⟨_, rfl⟩
    · obtain rfl : token = .word op.keyword := h
      have hop : CompareOperator.ofKeyword? op.keyword = none := by cases op <;> decide
      exact ⟨_, by rw [readAttribute, hop]⟩

/-- The items of a list are no expression. -/
theorem term_items (finish n o : Nat) (rest : List Placed) {vs : List Value} {ps : List Placed}
    (hps : ps.map Placed.token = Value.itemTokens vs) :
    ∃ e, term finish n (ps ++ ⟨.rightBracket, o⟩ :: rest) = .error e := by
  cases vs with
  | nil =>
    obtain rfl : ps = [] := by simpa [Value.itemTokens] using hps
    cases n <;> exact ⟨_, rfl⟩
  | cons v vs =>
    rw [Value.itemTokens_cons] at hps
    rcases v.tokens_cases with ⟨s, rfl⟩ | hw | ⟨items, rfl⟩
    · obtain ⟨⟨_, o'⟩, ps', rfl, rfl, -⟩ := List.map_eq_cons_iff.mp hps
      cases n <;> exact ⟨_, rfl⟩
    · rw [hw.tokens, List.singleton_append] at hps
      obtain ⟨⟨_, o'⟩, ps', rfl, rfl, hps'⟩ := List.map_eq_cons_iff.mp hps
      cases n with
      | zero => exact ⟨_, rfl⟩
      | succ n =>
        rw [List.cons_append, term_word hw.isReserved]
        -- the word of an item is followed by a comma or the closing bracket
        cases vs with
        | nil =>
          obtain rfl : ps' = [] := by simpa using hps'
          exact ⟨_, rfl⟩
        | cons w vs =>
          rw [List.flatMap_cons, List.cons_append] at hps'
          obtain ⟨⟨_, o''⟩, ps'', rfl, rfl, -⟩ := List.map_eq_cons_iff.mp hps'
          exact ⟨_, rfl⟩
    · obtain ⟨⟨_, o'⟩, ps', rfl, rfl, -⟩ := List.map_eq_cons_iff.mp hps
      cases n <;> exact ⟨_, rfl⟩

theorem disjunction_error {operand : Reader} {ts : List Placed} (h : ∃ e, operand ts = .error e) :
    ∃ e, disjunction operand ts = .error e := by
  obtain ⟨e, he⟩ := h
  exact ⟨e, by unfold disjunction chain; simp only [he]⟩

/-- An operator and its value, read as a path and what should follow it, are
no expression. -/
theorem term_operator {finish n : Nat} {rest : List Placed} {c : Comparison} {ps : List Placed}
    (hps : ps.map Placed.token = c.tokens.tail) (hrest : Follows rest) :
    ∃ e, term finish n (ps ++ rest) = .error e := by
  obtain ⟨path, op, value⟩ := c
  obtain ⟨⟨_, o⟩, ps', rfl, rfl, hps'⟩ := List.map_eq_cons_iff.mp hps
  cases n with
  | zero => exact ⟨_, rfl⟩
  | succ n =>
    rw [List.cons_append, term_word (isReserved_keyword op)]
    cases value with
    | none =>
      obtain rfl : ps' = [] := by simpa using hps'
      exact readAttribute_follows hrest
    | some v =>
      replace hps' : ps'.map Placed.token = v.tokens := hps'
      rcases v.tokens_cases with ⟨s, rfl⟩ | hw | ⟨items, rfl⟩
      · obtain ⟨⟨_, o'⟩, ps'', rfl, rfl, -⟩ := List.map_eq_cons_iff.mp hps'
        exact ⟨_, rfl⟩
      · rw [hw.tokens] at hps'
        obtain ⟨⟨_, o'⟩, ps'', rfl, rfl, -⟩ := List.map_eq_cons_iff.mp hps'
        rw [List.cons_append, readAttribute, hw.ofKeyword?]
        exact ⟨_, rfl⟩
      · obtain ⟨⟨_, o'⟩, ps'', rfl, rfl, hps''⟩ := List.map_eq_cons_iff.mp hps'
        obtain ⟨ps₁, ps₂, rfl, hitems, hclose⟩ := List.map_eq_append_iff.mp hps''
        obtain ⟨⟨_, o''⟩, ps₃, rfl, rfl, -⟩ := List.map_eq_cons_iff.mp hclose
        obtain ⟨e, he⟩ := disjunction_error (term_items finish n o'' (ps₃ ++ rest) hitems)
        rw [List.cons_append, List.append_assoc, List.cons_append, readAttribute, he]
        exact ⟨_, rfl⟩

/-! ## Terms -/

/-- What a reader with `n` levels left accepts. -/
structure Expression.Readable (n : Nat) (e : Expression) : Prop where
  legible : e.IsLegible
  shallow : e.nesting < n

namespace Expression

variable {finish : Nat}

/-- The reader of terms, run on the tokens of the expression. -/
def ReadAsTerm (finish : Nat) (e : Expression) : Prop :=
  ∀ ⦃n : Nat⦄ ⦃ps rest : List Placed⦄, ps.map Placed.token = e.tokens → Follows rest →
    Answers (e.Readable n) (term finish n (ps ++ rest)) (.ok (e.reread, rest))

/-- The reader of conjunctions goes on behind the expression. -/
def ReadAsAnd (finish : Nat) (e : Expression) : Prop :=
  ∀ ⦃n : Nat⦄ ⦃ps rest : List Placed⦄, ps.map Placed.token = e.tokens → Follows rest →
    Answers (e.Readable n) (chain .and (term finish n) (ps ++ rest))
      (chainFrom .and (term finish n) e.reread rest)

/-- The reader of disjunctions goes on behind the expression. -/
def ReadAsOr (finish : Nat) (e : Expression) : Prop :=
  ∀ ⦃n : Nat⦄ ⦃ps rest : List Placed⦄, ps.map Placed.token = e.tokens → Follows rest →
    Breaks .and rest →
    Answers (e.Readable n) (disjunction (term finish n) (ps ++ rest))
      (chainFrom .or (chain .and (term finish n)) e.reread rest)

theorem ReadAsTerm.readAsAnd {e : Expression} (h : ReadAsTerm finish e) : ReadAsAnd finish e :=
  fun _ _ _ hps hrest => (h hps hrest).chain

theorem ReadAsAnd.closed {e : Expression} (h : ReadAsAnd finish e) {n : Nat}
    {ps rest : List Placed} (hps : ps.map Placed.token = e.tokens) (hrest : Follows rest)
    (hbreaks : Breaks .and rest) :
    Answers (e.Readable n) (chain .and (term finish n) (ps ++ rest)) (.ok (e.reread, rest)) :=
  (h hps hrest).answer_eq (chainFrom_of_breaks _ _ hbreaks)

theorem ReadAsAnd.readAsOr {e : Expression} (h : ReadAsAnd finish e) : ReadAsOr finish e :=
  fun _ _ _ hps hrest hbreaks => (h.closed hps hrest hbreaks).chain

/-- Before a closing bracket a disjunction is complete. -/
theorem ReadAsOr.closed {e : Expression} (h : ReadAsOr finish e) {n o : Nat} {close : Token}
    {ps rest : List Placed} (hps : ps.map Placed.token = e.tokens)
    (hclose : close = .rightParen ∨ close = .rightBracket) :
    Answers (e.Readable n) (disjunction (term finish n) (ps ++ ⟨close, o⟩ :: rest))
      (.ok (e.reread, ⟨close, o⟩ :: rest)) := by
  have hfollows : Follows (⟨close, o⟩ :: rest) := by
    rintro t ht
    obtain rfl : ⟨close, o⟩ = t := Option.some.inj ht
    rcases hclose with rfl | rfl <;> simp
  have hbreaks : ∀ op, Breaks op (⟨close, o⟩ :: rest) := by
    rintro op t ht
    obtain rfl : ⟨close, o⟩ = t := Option.some.inj ht
    rcases hclose with rfl | rfl <;> rfl
  exact (h hps hfollows (hbreaks .and)).answer_eq (chainFrom_of_breaks _ _ (hbreaks .or))

theorem readAttribute_present {inner : Reader} {w : String} {o o' : Nat} (rest : List Placed) :
    readAttribute inner w o (⟨.word CompareOperator.pr.keyword, o'⟩ :: rest) =
      .ok (.compare (.present w), rest) := by
  rw [readAttribute, ofKeyword?_keyword]

theorem readAttribute_value {inner : Reader} {w : String} {o o' : Nat} {op : CompareOperator}
    (hop : op ≠ .pr) (rest : List Placed) :
    readAttribute inner w o (⟨.word op.keyword, o'⟩ :: rest) =
      (readValue op ⟨.word op.keyword, o'⟩ rest >>= fun (v, rest) =>
        .ok (.compare (.with w op v), rest)) := by
  rw [readAttribute, ofKeyword?_keyword]
  cases op <;> first | exact absurd rfl hop | rfl

/-- A keyword in place of a path is refused, when what follows it is no term. -/
theorem term_reserved {n : Nat} {w : String} {rest : List Placed} (o : Nat)
    (hw : isReserved w = true) (hrest : ∃ e, term finish n rest = .error e) :
    ∃ e, term finish (n + 1) (⟨.word w, o⟩ :: rest) = .error e := by
  rw [term]
  by_cases hnot : sameFold w "not" = true
  · obtain ⟨e, he⟩ := hrest
    rw [if_pos hnot, he]
    exact ⟨e, rfl⟩
  · have hlogical : isLogicalKeyword w = true := by
      simpa [isReserved, hnot] using hw
    rw [if_neg hnot, if_pos hlogical]
    exact ⟨_, rfl⟩

theorem readAsTerm_compare {c : Comparison} (hc : c.IsWellFormed) :
    ReadAsTerm finish (.compare c) := by
  intro n ps rest hps hrest
  obtain ⟨⟨_, o⟩, ps', rfl, rfl, hps'⟩ := List.map_eq_cons_iff.mp hps
  cases n with
  | zero => exact .refuse (fun h => Nat.not_lt_zero _ h.shallow) rfl
  | succ n =>
    rw [List.cons_append]
    by_cases hfree : isReserved c.path = false
    · rw [term_word hfree]
      obtain ⟨path, op, value⟩ := c
      obtain ⟨⟨_, o'⟩, ps'', rfl, rfl, hps''⟩ := List.map_eq_cons_iff.mp hps'
      cases value with
      | none =>
        have hop : op = .pr := by simpa using hc.value_iff
        subst hop
        obtain rfl : ps'' = [] := by simpa using hps''
        have hgood : (compare ⟨path, .pr, none⟩).Readable (n + 1) :=
          ⟨⟨hfree, by simp⟩, Nat.succ_pos n⟩
        exact ⟨fun _ => readAttribute_present rest, fun h => absurd hgood h⟩
      | some v =>
        have hop : op ≠ .pr := by simpa using hc.value_iff
        have hvalue := readValue_tokens op ⟨.word op.keyword, o'⟩ rest hps''
        rw [List.cons_append, readAttribute_value hop]
        have hread := hvalue.andThen
          (k := fun p => Except.ok (Expression.compare (.with path op p.1), p.2)) rfl
        refine hread.congr ⟨fun h => ⟨⟨hfree, ?_⟩, Nat.succ_pos n⟩, fun h => ?_⟩
        · rintro w hw
          obtain rfl : v = w := Option.some.inj hw
          exact h
        · exact h.legible.suits v rfl
    · have hreserved : isReserved c.path = true := by simpa using hfree
      obtain ⟨e, he⟩ := term_reserved o hreserved (term_operator (n := n) hps' hrest)
      exact .refuse (fun h => hfree h.legible.free) he

theorem readClose_close {close : Token} {fault : Fault} {opening : Placed} {o : Nat}
    (rest : List Placed) : readClose close fault opening (⟨close, o⟩ :: rest) = .ok rest := by
  rw [readClose, if_pos rfl]

theorem readAsTerm_not {inner : Expression} (h : ReadAsTerm finish inner) :
    ReadAsTerm finish (.not inner) := by
  intro n ps rest hps hrest
  obtain ⟨⟨_, o⟩, ps', rfl, rfl, hps'⟩ := List.map_eq_cons_iff.mp hps
  cases n with
  | zero => exact .refuse (fun h => Nat.not_lt_zero _ h.shallow) rfl
  | succ n =>
    have hread := (h (n := n) hps' hrest).andThen
      (k := fun p => Except.ok (Expression.not p.1, p.2)) rfl
    rw [List.cons_append, term, if_pos (by decide)]
    refine hread.congr ⟨fun h => ⟨h.legible, Nat.succ_lt_succ h.shallow⟩, fun h => ?_⟩
    exact ⟨h.legible, Nat.lt_of_succ_lt_succ h.shallow⟩

/-- An expression up to the bracket that closes it. -/
theorem ReadAsOr.bracketed {inner : Expression} (h : ReadAsOr finish inner)
    (wrap : Expression → Expression) {n o : Nat} {close : Token} (fault : Fault) (opening : Placed)
    {ps : List Placed} (rest : List Placed) (hps : ps.map Placed.token = inner.tokens)
    (hclose : close = .rightParen ∨ close = .rightBracket) :
    Answers (inner.Readable n)
      (disjunction (term finish n) (ps ++ ⟨close, o⟩ :: rest) >>= fun p =>
        readClose close fault opening p.2 >>= fun rest => .ok (wrap p.1, rest))
      (.ok (wrap inner.reread, rest)) := by
  refine (h.closed hps hclose).andThen ?_
  rw [readClose_close]
  rfl

theorem readAsTerm_group {inner : Expression} (h : ReadAsOr finish inner) :
    ReadAsTerm finish (.group inner) := by
  intro n ps rest hps hrest
  obtain ⟨⟨_, o⟩, ps', rfl, rfl, hps'⟩ := List.map_eq_cons_iff.mp hps
  obtain ⟨ps₁, ps₂, rfl, hinner, hclose⟩ := List.map_eq_append_iff.mp hps'
  obtain ⟨⟨_, o'⟩, ps₃, rfl, rfl, hps₃⟩ := List.map_eq_cons_iff.mp hclose
  obtain rfl : ps₃ = [] := by simpa using hps₃
  cases n with
  | zero => exact .refuse (fun h => Nat.not_lt_zero _ h.shallow) rfl
  | succ n =>
    have hread := h.bracketed .group (n := n) (o := o') .unclosedParen ⟨.leftParen, o⟩ rest hinner
      (.inl rfl)
    rw [List.cons_append, List.append_assoc, List.singleton_append, term]
    refine hread.congr ⟨fun h => ⟨h.legible, Nat.succ_lt_succ h.shallow⟩, fun h => ?_⟩
    exact ⟨h.legible, Nat.lt_of_succ_lt_succ h.shallow⟩

theorem readAsTerm_valuePath {path : String} {filter : Expression} (h : ReadAsOr finish filter) :
    ReadAsTerm finish (.valuePath path filter) := by
  intro n ps rest hps hrest
  obtain ⟨⟨_, o⟩, ps', rfl, rfl, hps'⟩ := List.map_eq_cons_iff.mp hps
  obtain ⟨⟨_, o'⟩, ps'', rfl, rfl, hps''⟩ := List.map_eq_cons_iff.mp hps'
  obtain ⟨ps₁, ps₂, rfl, hinner, hclose⟩ := List.map_eq_append_iff.mp hps''
  obtain ⟨⟨_, o''⟩, ps₃, rfl, rfl, hps₃⟩ := List.map_eq_cons_iff.mp hclose
  obtain rfl : ps₃ = [] := by simpa using hps₃
  rw [List.cons_append, List.cons_append, List.append_assoc, List.singleton_append]
  cases n with
  | zero => exact .refuse (fun h => Nat.not_lt_zero _ h.shallow) rfl
  | succ n =>
    by_cases hfree : isReserved path = false
    · have hread := h.bracketed (.valuePath path) (n := n) (o := o'') .unclosedBracket
        ⟨.leftBracket, o'⟩ rest hinner (.inr rfl)
      rw [term_word hfree, readAttribute]
      refine hread.congr ⟨fun h => ⟨⟨hfree, h.legible⟩, Nat.succ_lt_succ h.shallow⟩, fun h => ?_⟩
      exact ⟨h.legible.2, Nat.lt_of_succ_lt_succ h.shallow⟩
    · have hreserved : isReserved path = true := by simpa using hfree
      have hbracket : ∃ e, term finish n
          (⟨.leftBracket, o'⟩ :: (ps₁ ++ ⟨.rightBracket, o''⟩ :: rest)) = .error e := by
        cases n <;> exact ⟨_, rfl⟩
      obtain ⟨e, he⟩ := term_reserved o hreserved hbracket
      exact .refuse (fun h => hfree h.legible.1) he

/-! ## Chains of terms -/

theorem tokens_ne_nil (e : Expression) : e.tokens ≠ [] := by
  cases e <;> simp [tokens, Comparison.tokens]

theorem readable_logical {n : Nat} {op : LogicalOperator} {left right : Expression} :
    left.Readable n ∧ right.Readable n ↔ (logical op left right).Readable n := by
  constructor
  · rintro ⟨hl, hr⟩
    exact ⟨⟨hl.legible, hr.legible⟩, Nat.max_lt.mpr ⟨hl.shallow, hr.shallow⟩⟩
  · rintro ⟨⟨hl, hr⟩, hn⟩
    obtain ⟨hleft, hright⟩ := Nat.max_lt.mp hn
    exact ⟨⟨hl, hleft⟩, ⟨hr, hright⟩⟩

theorem follows_operator (op : LogicalOperator) (o : Nat) (rest : List Placed) :
    Follows (⟨.word op.keyword, o⟩ :: rest) := by
  rintro t ht
  obtain rfl : ⟨.word op.keyword, o⟩ = t := Option.some.inj ht
  exact .inr (.inr ⟨op, rfl⟩)

theorem readAsAnd_and {left right : Expression} (hl : ReadAsAnd finish left)
    (hr : ReadAsTerm finish right) : ReadAsAnd finish (.logical .and left right) := by
  intro n ps rest hps hrest
  obtain ⟨ps₁, ps', rfl, hleft, hps'⟩ := List.map_eq_append_iff.mp hps
  obtain ⟨⟨_, o⟩, ps₂, rfl, rfl, hright⟩ := List.map_eq_cons_iff.mp hps'
  have hne : ps₂ ≠ [] := by
    rintro rfl
    exact tokens_ne_nil right hright.symm
  have hfirst := hl (n := n) hleft (follows_operator .and o (ps₂ ++ rest))
  have hnext := (hr (n := n) hright hrest).chainFrom left.reread o .and hne
  rw [List.append_assoc, List.cons_append]
  exact (hfirst.trans hnext).congr readable_logical

theorem readAsOr_or {left right : Expression} (hl : ReadAsOr finish left)
    (hr : ReadAsAnd finish right) : ReadAsOr finish (.logical .or left right) := by
  intro n ps rest hps hrest hbreaks
  obtain ⟨ps₁, ps', rfl, hleft, hps'⟩ := List.map_eq_append_iff.mp hps
  obtain ⟨⟨_, o⟩, ps₂, rfl, rfl, hright⟩ := List.map_eq_cons_iff.mp hps'
  have hne : ps₂ ≠ [] := by
    rintro rfl
    exact tokens_ne_nil right hright.symm
  have hand : Breaks .and (⟨.word LogicalOperator.or.keyword, o⟩ :: (ps₂ ++ rest)) := by
    rintro t ht
    obtain rfl : ⟨.word LogicalOperator.or.keyword, o⟩ = t := Option.some.inj ht
    exact isKeyword_keyword .or .and
  have hfirst := hl (n := n) hleft (follows_operator .or o (ps₂ ++ rest)) hand
  have hnext := (hr.closed (n := n) hright hrest hbreaks).chainFrom left.reread o .or hne
  rw [List.append_assoc, List.cons_append]
  exact (hfirst.trans hnext).congr readable_logical

/-- The three readers, each on the expressions of its level. -/
structure ReadAtLevels (finish : Nat) (e : Expression) : Prop where
  term : e.isLogical = false → ReadAsTerm finish e
  and : e.isOr = false → ReadAsAnd finish e
  or : ReadAsOr finish e

theorem ReadAsTerm.readAtLevels {e : Expression} (h : ReadAsTerm finish e) :
    ReadAtLevels finish e :=
  ⟨fun _ => h, fun _ => h.readAsAnd, h.readAsAnd.readAsOr⟩

/-- The readers follow the grammar. -/
theorem readAtLevels {e : Expression} (hwell : e.IsWellFormed) (he : e.IsGrammatical) :
    ReadAtLevels finish e := by
  induction e with
  | compare c => exact (readAsTerm_compare hwell).readAtLevels
  | logical op left right ihl ihr =>
    cases op with
    | and =>
      obtain ⟨hleft, hright, hgl, hgr⟩ := he
      have h := readAsAnd_and ((ihl hwell.1 hgl).and hleft) ((ihr hwell.2 hgr).term hright)
      exact ⟨fun hf => absurd hf (by simp [isLogical]), fun _ => h, h.readAsOr⟩
    | or =>
      obtain ⟨hright, hgl, hgr⟩ := he
      have h := readAsOr_or (ihl hwell.1 hgl).or ((ihr hwell.2 hgr).and hright)
      exact ⟨fun hf => absurd hf (by simp [isLogical]), fun hf => absurd hf (by simp [isOr]), h⟩
  | not inner ih => exact (readAsTerm_not ((ih hwell he.2).term he.1)).readAtLevels
  | group inner ih => exact (readAsTerm_group (ih hwell he).or).readAtLevels
  | valuePath path filter ih => exact (readAsTerm_valuePath (ih hwell.2 he).or).readAtLevels

/-! ## Whole texts -/

/-- An expression of the grammar is what its tokens are read as, when it can be
read at all. -/
theorem parseTokens_tokens {e : Expression} (hwell : e.IsWellFormed) (he : e.IsGrammatical)
    {ps : List Placed} (hps : ps.map Placed.token = e.tokens) :
    Answers (e.Readable maxNesting ∧ e.depth ≤ maxDepth) (parseTokens finish ps)
      (.ok e.reread) := by
  have hlevels : ReadAtLevels finish e := readAtLevels hwell he
  have hread := (hlevels.or (n := maxNesting) hps follows_nil (breaks_nil _)).answer_eq
    (chainFrom_of_breaks _ _ (breaks_nil _))
  rw [List.append_nil] at hread
  unfold parseTokens
  constructor
  · rintro ⟨hgood, hdepth⟩
    rw [hread.1 hgood]
    exact if_pos (by rwa [deepestLevel_eq_depth, depth_reread])
  · intro hbad
    by_cases hgood : e.Readable maxNesting
    · have hdepth : ¬e.reread.deepestLevel ≤ maxDepth := by
        rw [deepestLevel_eq_depth, depth_reread]
        exact fun h => hbad ⟨hgood, h⟩
      rw [hread.1 hgood]
      exact ⟨_, if_neg hdepth⟩
    · obtain ⟨err, herr⟩ := hread.2 hgood
      exact ⟨err, by rw [herr]⟩

/-- A printed expression is read as its canonical form, but for doubles that are
no numbers, when that is legible and not too deep, and refused otherwise. -/
theorem answers_parse_text {e : Expression} (hwell : e.IsWellFormed) (hors : e.OrsApart) :
    Answers (e.IsLegible ∧ e.canonical.nesting < maxNesting ∧ e.canonical.depth ≤ maxDepth)
      (Expression.parse e.text) (.ok e.canonical.reread) := by
  have hlex := lexes_text hwell (stops_nil _) lexes_nil 0
  rw [List.append_nil, List.append_nil] at hlex
  unfold Expression.parse tokenize
  cases htokens : tokenizeFrom 0 e.text.toList with
  | error err => rw [htokens] at hlex; cases hlex
  | ok ps =>
    rw [htokens] at hlex
    have hps : ps.map Placed.token = e.canonical.tokens := by
      rw [canonical, tokens_leftNested]; exact Except.ok.inj hlex
    have hcanonical : e.canonical.IsWellFormed := (each_canonical e).mpr hwell
    refine (parseTokens_tokens hcanonical (isGrammatical_canonical hors) hps).congr ?_
    have hlegible : e.canonical.IsLegible ↔ e.IsLegible := each_canonical e
    constructor
    · rintro ⟨⟨hl, hn⟩, hd⟩
      exact ⟨hlegible.mp hl, hn, hd⟩
    · rintro ⟨hl, hn, hd⟩
      exact ⟨⟨hlegible.mpr hl, hn⟩, hd⟩

/-- With finite doubles it is read as its canonical form. -/
theorem parse_text {e : Expression} (hlexical : e.IsLexical) (hors : e.OrsApart) :
    Answers (e.IsLegible ∧ e.canonical.nesting < maxNesting ∧ e.canonical.depth ≤ maxDepth)
      (Expression.parse e.text) (.ok e.canonical) := by
  have hfinite : e.canonical.FloatsFinite :=
    (each_canonical e).mpr (hlexical.imp (fun _ _ => trivial) fun _ hc => hc.finite)
  have hanswers := answers_parse_text hlexical.isWellFormed hors
  rwa [reread_eq_self hfinite] at hanswers

section

variable {e f : Expression}

/-- The text of a legible expression is read exactly if its canonical form
keeps the bounds of the reader, and as that form. -/
theorem parse_text_eq_ok_iff (hwell : e.IsWellFormed) (hlegible : e.IsLegible)
    (hors : e.OrsApart) :
    Expression.parse e.text = .ok f ↔ f = e.canonical.reread ∧
      e.canonical.nesting < maxNesting ∧ e.canonical.depth ≤ maxDepth := by
  have hanswers := answers_parse_text hwell hors
  constructor
  · intro h
    obtain ⟨⟨-, hbounds⟩, hf⟩ := hanswers.eq_of_ok h
    exact ⟨hf, hbounds⟩
  · rintro ⟨rfl, hbounds⟩
    exact hanswers.1 ⟨hlegible, hbounds⟩

/-- Only the text of a legible expression is read. -/
theorem isLegible_of_parse_text (hwell : e.IsWellFormed) (hors : e.OrsApart)
    (h : Expression.parse e.text = .ok f) : e.IsLegible :=
  ((answers_parse_text hwell hors).eq_of_ok h).1.1

end

end Expression

end PolicyDialects.Filter
