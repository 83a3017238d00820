import PolicyDialects.Filter.Parser
import PolicyDialects.Proofs.Filter.Canonical
import PolicyDialects.Proofs.Outcome

/-!
# What the reader of filters returns

Every expression that is read is spelled by the tokens before those that are
left, as the grammar has it.

Results:

* `yields_readValue`, `yields_term`: values and terms.
* `spells_of_parseTokens`, `spells_of_parse`: whole texts, with the bounds on
  nesting and depth.
* `SpellsOr.isGrammatical`: what the grammar derives is nested as in the
  grammar.
-/

namespace PolicyDialects.Filter

open Text

/-- The tokens start with a spelling of what was read, and the others are
left. -/
def Consumes {α : Type} (p : List Token → α → Prop) (ts : List Placed)
    (r : α × List Placed) : Prop :=
  ∃ us, ts.map Placed.token = us ++ r.2.map Placed.token ∧ p us r.1

/-! ## Values -/

/-- The items of a list behind the first one, and the bracket. -/
def SpellsMoreItems (us : List Token) (vs : List Value) : Prop :=
  (vs = [] ∧ us = [.rightBracket]) ∨
    ∃ us', us = .comma :: (us' ++ [.rightBracket]) ∧ SpellsItems us' vs

theorem spellsItems_cons {t : Token} {v : Value} {us : List Token} {vs : List Value}
    (hv : itemValue? t = some v) (h : SpellsMoreItems us vs) :
    ∃ us', t :: us = us' ++ [.rightBracket] ∧ SpellsItems us' (v :: vs) := by
  rcases h with ⟨rfl, rfl⟩ | ⟨us', rfl, hitems⟩
  · exact ⟨[t], rfl, .one hv⟩
  · exact ⟨t :: .comma :: us', rfl, .more hv hitems⟩

theorem yields_readItems (opening : Placed) (ts : List Placed) :
    Yields (Consumes SpellsMoreItems ts) (readItems opening ts) := by
  fun_induction readItems opening ts with
  | case1 => exact .error _
  | case2 o rest => exact .ok ⟨[.rightBracket], rfl, .inl ⟨rfl, rfl⟩⟩
  | case3 => exact .error _
  | case4 o t rest v hv ih =>
    refine ih.map fun r hr => ?_
    obtain ⟨us, hus, hmore⟩ := hr
    obtain ⟨us', hus', hitems⟩ := spellsItems_cons hv hmore
    refine ⟨.comma :: t.token :: us, ?_, .inr ⟨us', ?_, hitems⟩⟩
    · rw [List.map_cons, List.map_cons, hus]; rfl
    · rw [hus']
  | case5 => exact .error _
  | case6 => exact .error _

/-- A list behind its opening bracket. -/
def SpellsListTail (us : List Token) (vs : List Value) : Prop :=
  (vs = [] ∧ us = [.rightBracket]) ∨ ∃ us', us = us' ++ [.rightBracket] ∧ SpellsItems us' vs

theorem yields_readList (opening : Placed) (ts : List Placed) :
    Yields (Consumes SpellsListTail ts) (readList opening ts) := by
  fun_cases readList opening ts with
  | case1 => exact .error _
  | case2 o rest => exact .ok ⟨[.rightBracket], rfl, .inl ⟨rfl, rfl⟩⟩
  | case3 t rest hne v hv =>
    refine (yields_readItems opening rest).map fun r hr => ?_
    obtain ⟨us, hus, hmore⟩ := hr
    obtain ⟨us', hus', hitems⟩ := spellsItems_cons hv hmore
    refine ⟨t.token :: us, ?_, .inr ⟨us', hus', hitems⟩⟩
    rw [List.map_cons, hus]; rfl
  | case4 => exact .error _

/-- The value after an operator. -/
theorem yields_readValue (op : CompareOperator) (t : Placed) (ts : List Placed) :
    Yields (Consumes (SpellsValue op) ts) (readValue op t ts) := by
  fun_cases readValue op t ts with
  | case1 => exact .error _
  | case2 s o rest => exact .ok ⟨[.literal s], rfl, .literal s⟩
  | case3 => exact .error _
  | case4 w o rest hfree =>
    exact .ok ⟨[.word w], rfl, .word (by simpa using hfree)⟩
  | case5 o rest hop =>
    refine (yields_readList ⟨.leftBracket, o⟩ rest).map fun r hr => ?_
    obtain ⟨us, hus, ⟨hvs, rfl⟩ | ⟨us', rfl, hitems⟩⟩ := hr
    · refine ⟨[.leftBracket, .rightBracket], ?_, ?_⟩
      · rw [List.map_cons, hus]; rfl
      · dsimp only; rw [hvs]; exact .noItems hop
    · refine ⟨.leftBracket :: (us' ++ [.rightBracket]), ?_, .items hop hitems⟩
      rw [List.map_cons, hus]; rfl
  | case6 => exact .error _
  | case7 => exact .error _

/-! ## Chains -/

theorem exists_of_isKeyword {t : Token} {keyword : String} (h : t.isKeyword keyword = true) :
    ∃ w, t = .word w ∧ sameFold w keyword = true := by
  cases t with
  | word w => exact ⟨w, rfl, h⟩
  | _ => cases h

section

variable {op : LogicalOperator} {operand : Reader} {p q : List Token → Expression → Prop}

/-- Operands of a chain, joined to the left. -/
theorem yields_chainFrom
    (hjoin : ∀ {us vs w left right}, q us left → sameFold w op.keyword = true → p vs right →
      q (us ++ .word w :: vs) (.logical op left right))
    (hoperand : ∀ ts, Yields (Consumes p ts) (operand ts)) {us : List Token} {left : Expression}
    (hleft : q us left) (ts : List Placed) :
    Yields (fun r => ∃ vs, ts.map Placed.token = vs ++ r.2.map Placed.token ∧ q (us ++ vs) r.1)
      (chainFrom op operand left ts) := by
  fun_induction chainFrom op operand left ts generalizing us with
  | case1 left => exact .ok ⟨[], rfl, by simpa using hleft⟩
  | case2 => exact .error _
  | case3 left t rest hkeyword right after hright hlt ih =>
    obtain ⟨w, ht, hw⟩ := exists_of_isKeyword hkeyword
    obtain ⟨vs, hvs, hp⟩ := hoperand rest _ hright
    refine (ih (hjoin hleft hw hp)).imp fun r hr => ?_
    obtain ⟨vs', hvs', hq⟩ := hr
    refine ⟨.word w :: (vs ++ vs'), ?_, by simpa using hq⟩
    rw [List.map_cons, hvs, ht, hvs']
    simp
  | case4 left t rest hkeyword right after hright hlt =>
    obtain ⟨w, ht, hw⟩ := exists_of_isKeyword hkeyword
    obtain ⟨vs, hvs, hp⟩ := hoperand rest _ hright
    refine .ok ⟨.word w :: vs, ?_, hjoin hleft hw hp⟩
    rw [List.map_cons, hvs, ht]
    rfl
  | case5 left t rest => exact .ok ⟨[], rfl, by simpa using hleft⟩

theorem yields_chain
    (hjoin : ∀ {us vs w left right}, q us left → sameFold w op.keyword = true → p vs right →
      q (us ++ .word w :: vs) (.logical op left right))
    (hfirst : ∀ {us e}, p us e → q us e)
    (hoperand : ∀ ts, Yields (Consumes p ts) (operand ts)) (ts : List Placed) :
    Yields (Consumes q ts) (chain op operand ts) := by
  unfold chain
  split
  · exact .error _
  · rename_i left rest hleft
    obtain ⟨us, hus, hp⟩ := hoperand ts _ hleft
    refine (yields_chainFrom hjoin hoperand (hfirst hp) rest).imp fun r hr => ?_
    obtain ⟨vs, hvs, hq⟩ := hr
    exact ⟨us ++ vs, by rw [hus, hvs, List.append_assoc], hq⟩

end

/-! ## Terms -/

/-- The tokens spell a term within some number of others. -/
def SpellsTermWithin (n : Nat) (us : List Token) (e : Expression) : Prop :=
  SpellsTerm us e ∧ e.nesting < n

/-- The tokens spell an expression within some number of terms. -/
def SpellsOrWithin (n : Nat) (us : List Token) (e : Expression) : Prop :=
  SpellsOr us e ∧ e.nesting < n

theorem yields_disjunction {n : Nat} {term : Reader}
    (hterm : ∀ ts, Yields (Consumes (SpellsTermWithin n) ts) (term ts)) (ts : List Placed) :
    Yields (Consumes (SpellsOrWithin n) ts) (disjunction term ts) := by
  have hand : ∀ ts, Yields (Consumes (fun us e => SpellsAnd us e ∧ e.nesting < n) ts)
      (chain .and term ts) :=
    yields_chain (fun hl hw hr => ⟨.and hl.1 hw hr.1, Nat.max_lt.mpr ⟨hl.2, hr.2⟩⟩)
      (fun h => ⟨.term h.1, h.2⟩) hterm
  exact yields_chain (fun hl hw hr => ⟨.or hl.1 hw hr.1, Nat.max_lt.mpr ⟨hl.2, hr.2⟩⟩)
    (fun h => ⟨.and h.1, h.2⟩) hand ts

theorem yields_readClose (close : Token) (fault : Fault) (opening : Placed) (ts : List Placed) :
    Yields (fun rest => ts.map Placed.token = close :: rest.map Placed.token)
      (readClose close fault opening ts) := by
  cases ts with
  | nil => exact .error _
  | cons t ts =>
    rw [readClose]
    split_ifs with ht
    · exact .ok (by rw [List.map_cons, ht])
    · exact .error _

/-- An expression and the bracket behind it. -/
theorem yields_bracketed {n : Nat} {inner : Reader}
    (hinner : ∀ ts, Yields (Consumes (SpellsOrWithin n) ts) (inner ts))
    (wrap : Expression → Expression) (close : Token) (fault : Fault) (opening : Placed)
    (ts : List Placed) :
    Yields (fun r => ∃ us e, ts.map Placed.token = us ++ close :: r.2.map Placed.token ∧
        SpellsOrWithin n us e ∧ r.1 = wrap e)
      (inner ts >>= fun p => readClose close fault opening p.2 >>= fun rest =>
        .ok (wrap p.1, rest)) := by
  refine (hinner ts).bind fun p hp => ?_
  obtain ⟨us, hus, he⟩ := hp
  refine (yields_readClose close fault opening p.2).bind fun rest hrest => ?_
  exact .ok ⟨us, p.1, by rw [hus, hrest], he, rfl⟩

theorem yields_readAttribute {n : Nat} {inner : Reader} {path : String}
    (hinner : ∀ ts, Yields (Consumes (SpellsOrWithin n) ts) (inner ts))
    (hfree : isReserved path = false) (offset : Nat) (ts : List Placed) :
    Yields (fun r => ∃ us, ts.map Placed.token = us ++ r.2.map Placed.token ∧
        SpellsTermWithin (n + 1) (.word path :: us) r.1)
      (readAttribute inner path offset ts) := by
  fun_cases readAttribute inner path offset ts with
  | case1 => exact .error _
  | case2 o rest =>
    have hread := yields_bracketed hinner (.valuePath path) .rightBracket .unclosedBracket
      ⟨.leftBracket, o⟩ rest
    refine hread.imp fun r hr => ?_
    obtain ⟨us, e, hus, ⟨he, hn⟩, hr⟩ := hr
    refine ⟨.leftBracket :: (us ++ [.rightBracket]), ?_, ?_⟩
    · rw [List.map_cons, hus]; simp
    · rw [hr]
      exact ⟨.valuePath hfree he, Nat.succ_lt_succ hn⟩
  | case3 => exact .error _
  | case4 w o rest hop =>
    exact .ok ⟨[.word w], rfl, .present hfree hop, Nat.succ_pos n⟩
  | case5 w o rest op hpr hop =>
    refine (yields_readValue op ⟨.word w, o⟩ rest).bind fun r hr => ?_
    obtain ⟨us, hus, hvalue⟩ := hr
    have hbinary : op ≠ .pr := fun h => hpr h
    refine .ok ⟨.word w :: us, ?_, .compare hfree hop hbinary hvalue, Nat.succ_pos n⟩
    rw [List.map_cons, hus]; rfl
  | case6 => exact .error _

/-- A term with `n` levels left. -/
theorem yields_term (finish n : Nat) (ts : List Placed) :
    Yields (Consumes (SpellsTermWithin n) ts) (term finish n ts) := by
  induction n generalizing ts with
  | zero => cases ts <;> exact .error _
  | succ n ih =>
    have hinner := yields_disjunction ih
    match ts with
    | [] => exact .error _
    | ⟨.word w, o⟩ :: rest =>
      rw [term]
      split_ifs with hnot hlogical
      · refine (ih rest).bind fun r hr => ?_
        obtain ⟨us, hus, he, hn⟩ := hr
        refine .ok ⟨.word w :: us, ?_, .not hnot he, Nat.succ_lt_succ hn⟩
        rw [List.map_cons, hus]; rfl
      · exact .error _
      · have hfree : isReserved w = false := by
          simp only [Bool.not_eq_true] at hnot hlogical
          rw [isReserved, hlogical, hnot]
          rfl
        refine (yields_readAttribute hinner hfree o rest).imp fun r hr => ?_
        obtain ⟨us, hus, he⟩ := hr
        exact ⟨.word w :: us, by rw [List.map_cons, hus]; rfl, he⟩
    | ⟨.leftParen, o⟩ :: rest =>
      have hread := yields_bracketed hinner .group .rightParen .unclosedParen ⟨.leftParen, o⟩ rest
      refine hread.imp fun r hr => ?_
      obtain ⟨us, e, hus, ⟨he, hn⟩, hr⟩ := hr
      refine ⟨.leftParen :: (us ++ [.rightParen]), ?_, ?_⟩
      · rw [List.map_cons, hus]; simp
      · rw [hr]
        exact ⟨.group he, Nat.succ_lt_succ hn⟩
    | ⟨.rightParen, _⟩ :: _ => exact .error _
    | ⟨.rightBracket, _⟩ :: _ => exact .error _
    | ⟨.leftBracket, _⟩ :: _ => exact .error _
    | ⟨.comma, _⟩ :: _ => exact .error _
    | ⟨.literal _, _⟩ :: _ => exact .error _

/-! ## Whole texts -/

/-- All tokens spell what is read, and its terms and its depth are bounded. -/
theorem spells_of_parseTokens {finish : Nat} {ts : List Placed} {e : Expression}
    (h : parseTokens finish ts = .ok e) :
    SpellsOr (ts.map Placed.token) e ∧ e.nesting < maxNesting ∧
      e.depth ≤ Expression.maxDepth := by
  unfold parseTokens at h
  split at h
  · cases h
  · cases h
  · rename_i e' hread
    split_ifs at h with hdepth
    rw [Expression.deepestLevel_eq_depth] at hdepth
    obtain rfl := Except.ok.inj h
    obtain ⟨us, hus, he, hn⟩ := yields_disjunction (yields_term finish maxNesting) ts _ hread
    have htokens : ts.map Placed.token = us := by simpa using hus
    rw [htokens]
    exact ⟨he, hn, hdepth⟩

theorem spells_of_parse {text : String} {e : Expression} (h : Expression.parse text = .ok e) :
    ∃ ts, tokenize text = .ok ts ∧ SpellsOr (ts.map Placed.token) e ∧
      e.nesting < maxNesting ∧ e.depth ≤ Expression.maxDepth := by
  obtain ⟨ts, hts, hparse⟩ := bind_eq_ok.mp h
  exact ⟨ts, hts, spells_of_parseTokens hparse⟩

/-! ## Nesting of what is spelled -/

mutual

theorem SpellsTerm.isGrammatical {ts : List Token} {e : Expression} (h : SpellsTerm ts e) :
    e.IsGrammatical ∧ e.isLogical = false := by
  match h with
  | .not _ inner => exact ⟨⟨inner.isGrammatical.2, inner.isGrammatical.1⟩, rfl⟩
  | .group inner => exact ⟨inner.isGrammatical, rfl⟩
  | .valuePath _ inner => exact ⟨inner.isGrammatical, rfl⟩
  | .present _ _ => exact ⟨trivial, rfl⟩
  | .compare _ _ _ _ => exact ⟨trivial, rfl⟩

theorem SpellsAnd.isGrammatical {ts : List Token} {e : Expression} (h : SpellsAnd ts e) :
    e.IsGrammatical ∧ e.isOr = false := by
  match h with
  | .term inner =>
    exact ⟨inner.isGrammatical.1, Expression.isOr_of_isLogical_eq_false inner.isGrammatical.2⟩
  | .and first _ last =>
    obtain ⟨hl, hor⟩ := first.isGrammatical
    obtain ⟨hr, hlogical⟩ := last.isGrammatical
    exact ⟨⟨hor, hlogical, hl, hr⟩, rfl⟩

theorem SpellsOr.isGrammatical {ts : List Token} {e : Expression} (h : SpellsOr ts e) :
    e.IsGrammatical := by
  match h with
  | .and inner => exact inner.isGrammatical.1
  | .or first _ last =>
    obtain ⟨hr, hor⟩ := last.isGrammatical
    exact ⟨hor, first.isGrammatical, hr⟩

end

/-- What is read from a text is nested as in the grammar. -/
theorem isGrammatical_of_parse {text : String} {e : Expression}
    (h : Expression.parse text = .ok e) : e.IsGrammatical := by
  obtain ⟨ts, -, hspells, -⟩ := spells_of_parse h
  exact hspells.isGrammatical

end PolicyDialects.Filter
