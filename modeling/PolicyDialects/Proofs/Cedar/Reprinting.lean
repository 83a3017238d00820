import PolicyDialects.Proofs.Cedar.OpenQuotes
import PolicyDialects.Proofs.Cedar.Reading

/-!
# Printing what was read

A document that was read from any text, with any spacing and comments, is
printed as a text that is read as the same document again. What an entity with
an open quote is read as depends on all that follows it, so each part of the
grammar is shown to leave open in print what it left open in the text.

Results:

* `Reprints.many`: printing a list of parts, from printing one of them.
* `reprints_head`, `reprints_note`, `reprints_clause`, `reprints_policy`: the
  parts of a policy.
* `Document.parse_text_reread`: what is read back is the same document,
  exactly if no value of an annotation holds a control character.
-/

namespace PolicyDialects.Cedar

open Text
open Reader

/-! ## What a reader has found -/

section

variable {α β : Type} {r : Reader α} {cs mid rest : List Char} {a : α}

/-- Somewhere the reader finds the value in the text and leaves the rest. -/
def Found (r : Reader α) (cs : List Char) (a : α) (rest : List Char) : Prop :=
  ∃ offset offset' trials, r ⟨offset, cs⟩ = (some (a, ⟨offset', rest⟩), trials)

theorem Found.of_pure {b : α} (h : Found (Pure.pure a : Reader α) cs b rest) :
    b = a ∧ rest = cs := by
  obtain ⟨_, _, _, h⟩ := h
  cases h
  exact ⟨rfl, rfl⟩

theorem Found.of_bind {f : α → Reader β} {b : β} (h : Found (r >>= f) cs b rest) :
    ∃ a mid, Found r cs a mid ∧ Found (f a) mid b rest := by
  obtain ⟨o, o', trials, h⟩ := h
  change Reader.bind r f _ = _ at h
  rw [Reader.bind] at h
  rcases hr : r ⟨o, cs⟩ with ⟨_ | ⟨a, o'', mid⟩, ts⟩
  · rw [hr] at h
    cases h
  · rw [hr] at h
    exact ⟨a, mid, ⟨_, _, _, hr⟩, o'', o', _, Prod.ext (Prod.mk.inj h).1 rfl⟩

theorem Found.of_rule {name : Rule} (h : Found (rule name r) cs a rest) : Found r cs a rest := by
  obtain ⟨o, o', trials, h⟩ := h
  rw [rule] at h
  exact ⟨o, o', _, Prod.ext (Prod.mk.inj h).1 rfl⟩

theorem Found.of_shape {take : List Char → Option (List Char × List Char)} {s : String}
    (h : Found (shape take) cs s rest) : take cs = some (s.toList, rest) := by
  obtain ⟨o, o', trials, h⟩ := h
  rw [shape] at h
  rcases htake : take cs with _ | ⟨t, tail⟩
  · rw [htake] at h
    cases h
  · rw [htake] at h
    obtain ⟨rfl, hplace⟩ := Prod.mk.inj (Option.some.inj (Prod.mk.inj h).1)
    obtain rfl : tail = rest := congrArg Place.text hplace
    rw [String.toList_ofList]

theorem Found.of_space (h : Found space cs () rest) : rest = skipSpace cs := by
  obtain ⟨o, o', trials, h⟩ := h
  exact (congrArg Place.text (Prod.mk.inj (Option.some.inj (Prod.mk.inj h).1)).2).symm

theorem Found.of_symbol {s : List Char} (h : Found (symbol s) cs () rest) : cs = s ++ rest := by
  obtain ⟨o, o', trials, h⟩ := h
  rw [symbol] at h
  cases hstrip : stripPrefix? s cs with
  | none =>
    rw [hstrip] at h
    cases h
  | some tail =>
    rw [hstrip] at h
    obtain rfl : tail = rest :=
      congrArg Place.text (Prod.mk.inj (Option.some.inj (Prod.mk.inj h).1)).2
    exact stripPrefix?_eq_some_iff.mp hstrip

/-- A keyword in some case. -/
theorem Found.of_keyword {word : String} (h : Found (keyword word) cs () rest) :
    ∃ w, cs = w ++ rest ∧ foldCase w = word.toList := by
  obtain ⟨o, o', trials, h⟩ := h
  rw [keyword, takeKeyword] at h
  split at h
  · rename_i tail hword
    split at hword
    · obtain rfl : tail = rest :=
        congrArg Place.text (Prod.mk.inj (Option.some.inj (Prod.mk.inj h).1)).2
      refine ⟨cs.take word.toList.length, ?_, ‹_›⟩
      rw [← Option.some.inj hword, List.take_append_drop]
    · cases hword
  · cases h

theorem Found.of_orElse {s : Reader α} (h : Found (orElse r s) cs a rest) :
    Found r cs a rest ∨ Found s cs a rest := by
  obtain ⟨o, o', trials, h⟩ := h
  rw [orElse] at h
  rcases hr : r ⟨o, cs⟩ with ⟨_ | found, ts⟩
  · rw [hr] at h
    exact .inr ⟨o, o', _, Prod.ext (Prod.mk.inj h).1 rfl⟩
  · rw [hr] at h
    exact .inl ⟨o, o', ts, hr.trans (Prod.ext (Prod.mk.inj h).1 rfl)⟩

theorem Found.of_optional {found : Option α} (h : Found (optional r) cs found rest) :
    (∃ a, found = some a ∧ Found r cs a rest) ∨ (found = none ∧ rest = cs) := by
  obtain ⟨o, o', trials, h⟩ := h
  rw [Reader.optional] at h
  rcases hr : r ⟨o, cs⟩ with ⟨_ | ⟨a, q⟩, ts⟩
  · rw [hr] at h
    obtain ⟨rfl, hplace⟩ := Prod.mk.inj (Option.some.inj (Prod.mk.inj h).1)
    exact .inr ⟨rfl, (congrArg Place.text hplace).symm⟩
  · rw [hr] at h
    obtain ⟨rfl, rfl⟩ := Prod.mk.inj (Option.some.inj (Prod.mk.inj h).1)
    exact .inl ⟨a, rfl, _, _, _, hr⟩

/-- The values found one after the other behind the first one, and what is left
behind them. -/
inductive FoundMore (r : Reader α) : List Char → List α → List Char → Prop where
  | stop {cs : List Char} : FoundMore r cs [] cs
  | more {cs mid rest : List Char} {a : α} {as : List α} (h : Found r (skipSpace cs) a mid)
      (hmore : FoundMore r mid as rest) : FoundMore r cs (a :: as) rest

theorem Found.behind_space (h : Found (space >>= fun _ => r) cs a rest) :
    Found r (skipSpace cs) a rest := by
  obtain ⟨_, mid, hspace, hr⟩ := h.of_bind
  rwa [hspace.of_space] at hr

theorem foundMore_go {as : List α} {p q : Place} {trials : List Trial}
    (h : many.go r p = (as, q, trials)) : FoundMore r p.text as q.text := by
  fun_induction many.go r p generalizing as q trials with
  | case1 p ts hstop =>
    obtain ⟨rfl, rfl, -⟩ := h
    exact .stop
  | case2 p a q' ts hfound hlt as' q'' more hmore ih =>
    obtain ⟨rfl, rfl, -⟩ := h
    exact .more (Found.behind_space ⟨_, _, _, hfound⟩) (ih hmore)
  | case3 p a q' ts hfound hlt =>
    obtain ⟨rfl, rfl, -⟩ := h
    exact .more (Found.behind_space ⟨_, _, _, hfound⟩) .stop

theorem Found.of_many {as : List α} (h : Found (many r) cs as rest) :
    (as = [] ∧ rest = cs) ∨
      ∃ a as' mid, as = a :: as' ∧ Found r cs a mid ∧ FoundMore r mid as' rest := by
  obtain ⟨o, o', trials, h⟩ := h
  rw [many] at h
  rcases hr : r ⟨o, cs⟩ with ⟨_ | ⟨a, q⟩, ts⟩
  · rw [hr] at h
    obtain ⟨rfl, hplace⟩ := Prod.mk.inj (Option.some.inj (Prod.mk.inj h).1)
    exact .inl ⟨rfl, (congrArg Place.text hplace).symm⟩
  · rw [hr] at h
    dsimp only at h
    rcases hgo : many.go r q with ⟨as', q', more⟩
    rw [hgo] at h
    obtain ⟨rfl, rfl⟩ := Prod.mk.inj (Option.some.inj (Prod.mk.inj h).1)
    exact .inr ⟨a, as', q.text, rfl, ⟨_, _, _, hr⟩, foundMore_go hgo⟩

end

/-! ## Tokens -/

theorem Found.leavesOpen_space {cs rest : List Char} (h : Found space cs () rest)
    (hcs : LeavesOpen cs) : LeavesOpen rest := by
  rw [h.of_space]
  exact hcs.skipSpace

theorem Found.leavesOpen_symbol {s cs rest : List Char} (h : Found (symbol s) cs () rest)
    (hs : ∀ c ∈ s, c ≠ '"' ∧ c ≠ '\\') (hcs : LeavesOpen cs) : LeavesOpen rest := by
  rw [h.of_symbol] at hcs
  exact (leavesOpen_plain_append hs).mp hcs

theorem Found.leavesOpen_keyword {word : String} {cs rest : List Char}
    (h : Found (keyword word) cs () rest) (hword : ∀ c ∈ word.toList, c ≠ '"' ∧ c ≠ '\\')
    (hcs : LeavesOpen cs) : LeavesOpen rest := by
  obtain ⟨w, rfl, hw⟩ := h.of_keyword
  have hplain : ∀ c ∈ w, c ≠ '"' ∧ c ≠ '\\' := by
    intro c hc
    have hlower := hword c.toLower (by rw [← hw]; exact List.mem_map_of_mem hc)
    constructor <;> rintro rfl
    · exact hlower.1 (by decide)
    · exact hlower.2 (by decide)
  exact (leavesOpen_plain_append hplain).mp hcs

/-- One of two words. -/
theorem Found.leavesOpen_choice {α : Type} {a b found : α} {cs rest : List Char}
    {r s : Reader Unit}
    (h : Found (orElse (do r; return a) (do s; return b)) cs found rest)
    (hr : ∀ {mid}, Found r cs () mid → LeavesOpen cs → LeavesOpen mid)
    (hs : ∀ {mid}, Found s cs () mid → LeavesOpen cs → LeavesOpen mid)
    (hcs : LeavesOpen cs) : LeavesOpen rest := by
  rcases h.of_orElse with h | h
  · obtain ⟨_, mid, hfound, hpure⟩ := h.of_bind
    obtain ⟨-, rfl⟩ := hpure.of_pure
    exact hr hfound hcs
  · obtain ⟨_, mid, hfound, hpure⟩ := h.of_bind
    obtain ⟨-, rfl⟩ := hpure.of_pure
    exact hs hfound hcs

theorem Found.leavesOpen_effect {cs rest : List Char} {e : Effect} (h : Found effect cs e rest) :
    LeavesOpen cs → LeavesOpen rest :=
  h.of_rule.leavesOpen_choice (·.leavesOpen_keyword (by decide))
    (·.leavesOpen_keyword (by decide))

theorem Found.leavesOpen_clauseKind {cs rest : List Char} {k : ClauseKind}
    (h : Found clauseKind cs k rest) : LeavesOpen cs → LeavesOpen rest :=
  h.of_rule.leavesOpen_choice (·.leavesOpen_keyword (by decide))
    (·.leavesOpen_keyword (by decide))

theorem Found.leavesOpen_scopeOp {cs rest : List Char} {op : ScopeOperator}
    (h : Found scopeOp cs op rest) : LeavesOpen cs → LeavesOpen rest :=
  h.of_rule.leavesOpen_choice (·.leavesOpen_symbol (by decide))
    (·.leavesOpen_keyword (by decide))

/-! ## Slots -/

/-- What the reader finds fits in front of any text that ends it and closes no
more than what it was found in front of; and its print closes no more there than
the text did that it was found in. -/
def Reprints {α : Type} (r : Reader α) (print : α → List Char) (fits : α → List Char → Prop)
    (ends : List Char → Prop) : Prop :=
  ∀ {cs a rest rest'}, Found r cs a rest → ends rest' → (LeavesOpen rest → LeavesOpen rest') →
    fits a rest' ∧ (LeavesOpen cs → LeavesOpen (print a ++ rest'))

section

variable {α : Type} {r : Reader α} {print : α → List Char} {fits : α → List Char → Prop}
  {ends : List Char → Prop}

theorem ends_flatMap (hends : ∀ a cs, ends (print a ++ cs)) (as : List α) {rest : List Char}
    (hrest : ends rest) : ends (as.flatMap print ++ rest) := by
  cases as with
  | nil => exact hrest
  | cons a as =>
    rw [List.flatMap_cons, List.append_assoc]
    exact hends a _

theorem Reprints.foundMore (h : Reprints r print fits ends)
    (hends : ∀ a cs, ends (print a ++ cs)) {cs rest rest' : List Char} {as : List α}
    (hmore : FoundMore r cs as rest) (hrest : ends rest')
    (hopen : LeavesOpen rest → LeavesOpen rest') :
    EachBefore fits print as rest' ∧ (LeavesOpen cs → LeavesOpen (as.flatMap print ++ rest')) := by
  induction hmore with
  | stop => exact ⟨trivial, hopen⟩
  | @more cs mid rest a as hfound _ ih =>
    obtain ⟨hfits, hlast⟩ := ih hopen
    obtain ⟨hfit, hfirst⟩ := h hfound (ends_flatMap hends as hrest) hlast
    refine ⟨⟨hfit, hfits⟩, fun hcs => ?_⟩
    rw [List.flatMap_cons, List.append_assoc]
    exact hfirst hcs.skipSpace

/-- A list of parts is printed part by part. -/
theorem Reprints.many (h : Reprints r print fits ends) (hends : ∀ a cs, ends (print a ++ cs)) :
    Reprints (many r) (List.flatMap print) (EachBefore fits print) ends := by
  intro cs as rest rest' hfound hrest hopen
  rcases hfound.of_many with ⟨rfl, rfl⟩ | ⟨a, as, mid, rfl, hfirst, hmore⟩
  · exact ⟨trivial, hopen⟩
  · obtain ⟨hfits, hlast⟩ := h.foundMore hends hmore hrest hopen
    obtain ⟨hfit, hopen'⟩ := h hfirst (ends_flatMap hends as hrest) hlast
    refine ⟨⟨hfit, hfits⟩, fun hcs => ?_⟩
    rw [List.flatMap_cons, List.append_assoc]
    exact hopen' hcs

end

/-- An entity behind space. -/
theorem reprints_entity {cs mid rest rest' : List Char} {e : String}
    (hspace : Found space cs () mid) (h : Found entity mid e rest) (hends : EndsEntity rest')
    (hopen : LeavesOpen rest → LeavesOpen rest') :
    ReadsEntity e rest' ∧ (LeavesOpen cs → LeavesOpen (e.toList ++ rest')) := by
  rw [hspace.of_space] at h
  have htake := h.of_rule.of_shape
  obtain ⟨hreread, hstarts⟩ := takeEntity_reread htake hends hopen
  exact ⟨⟨hreread, hstarts⟩, fun hcs => hcs.skipSpace.entity htake hends hopen⟩

theorem reprints_slot (name : Rule) {word : String}
    (hword : ∀ c ∈ word.toList, c ≠ '"' ∧ c ≠ '\\') :
    Reprints (slot name word) (fun c => (Scope.slotText word c).toList)
      (fun c rest => ∀ s ∈ c, ReadsEntity s.entity rest) EndsEntity := by
  intro cs c rest rest' h hends hopen
  obtain ⟨_, _, hkeyword, h⟩ := h.of_rule.of_bind
  obtain ⟨_, _, hspace, h⟩ := h.of_bind
  have hbefore := fun hcs => hspace.leavesOpen_space (hkeyword.leavesOpen_keyword hword hcs)
  rcases h.of_optional with ⟨s, rfl, hscope⟩ | ⟨rfl, rfl⟩
  · obtain ⟨op, _, hop, h⟩ := hscope.of_bind
    obtain ⟨_, _, hspace, h⟩ := h.of_bind
    obtain ⟨e, _, hentity, h⟩ := h.of_bind
    obtain ⟨rfl, rfl⟩ := h.of_pure
    obtain ⟨hreads, hafter⟩ := reprints_entity hspace hentity hends hopen
    refine ⟨fun s hs => ?_, fun hcs => ?_⟩
    · cases hs
      exact hreads
    · have htext : (Scope.slotText word (some ⟨op, e⟩)).toList ++ rest' =
          word.toList ++ (' ' :: (op.keyword.toList ++ [' ']) ++ (e.toList ++ rest')) := by
        simp [Scope.slotText]
      rw [htext, leavesOpen_plain_append hword, leavesOpen_plain_append (by cases op <;> decide)]
      exact hafter (hop.leavesOpen_scopeOp (hbefore hcs))
  · refine ⟨fun s hs => (by cases hs), fun hcs => ?_⟩
    exact (leavesOpen_plain_append hword).mpr (hopen (hbefore hcs))

theorem reprints_nextEntity : Reprints nextEntity entityItem ReadsEntity EndsEntity := by
  intro cs e rest rest' h hends hopen
  obtain ⟨_, _, hcomma, h⟩ := h.of_bind
  obtain ⟨_, _, hspace, hentity⟩ := h.of_bind
  obtain ⟨hreads, hafter⟩ := reprints_entity hspace hentity hends hopen
  refine ⟨hreads, fun hcs => ?_⟩
  rw [entityItem, List.cons_append, List.cons_append, leavesOpen_cons (by decide) (by decide),
    leavesOpen_cons (by decide) (by decide)]
  exact hafter (hcomma.leavesOpen_symbol (by decide) hcs)

/-- One action behind the keyword. -/
theorem reprints_actionEq {cs rest rest' : List Char} {a : ActionScope}
    (h : Found actionEq cs a rest) (hends : EndsEntity rest')
    (hopen : LeavesOpen rest → LeavesOpen rest') :
    ReadsAction (some a) rest' ∧
      (LeavesOpen cs → LeavesOpen ((ActionScope.slotText (some a)).toList ++ rest')) := by
  obtain ⟨_, _, hsymbol, h⟩ := h.of_rule.of_bind
  obtain ⟨_, _, hspace, h⟩ := h.of_bind
  obtain ⟨e, _, hentity, h⟩ := h.of_bind
  obtain ⟨rfl, rfl⟩ := h.of_pure
  obtain ⟨hreads, hafter⟩ := reprints_entity hspace hentity hends hopen
  refine ⟨hreads, fun hcs => ?_⟩
  have htext : (ActionScope.slotText (some (.eq e))).toList ++ rest' =
      "action == ".toList ++ (e.toList ++ rest') := by
    simp [ActionScope.slotText]
  rw [htext, leavesOpen_plain_append (by decide)]
  exact hafter (hsymbol.leavesOpen_symbol (by decide) hcs)

/-- A list of actions behind the keyword. -/
theorem reprints_actionIn {cs rest rest' : List Char} {a : ActionScope}
    (h : Found actionIn cs a rest) (hopen : LeavesOpen rest → LeavesOpen rest') :
    ReadsAction (some a) rest' ∧
      (LeavesOpen cs → LeavesOpen ((ActionScope.slotText (some a)).toList ++ rest')) := by
  obtain ⟨_, _, hin, h⟩ := h.of_rule.of_bind
  obtain ⟨_, _, hspace, h⟩ := h.of_bind
  obtain ⟨_, _, hbracket, h⟩ := h.of_bind
  obtain ⟨_, _, hfirst, h⟩ := h.of_bind
  obtain ⟨e, _, hentity, h⟩ := h.of_bind
  obtain ⟨_, _, hbetween, h⟩ := h.of_bind
  obtain ⟨es, _, hmany, h⟩ := h.of_bind
  obtain ⟨_, _, hlast, h⟩ := h.of_bind
  obtain ⟨_, _, hclose, h⟩ := h.of_bind
  obtain ⟨rfl, rfl⟩ := h.of_pure
  -- from the closing bracket back to the keyword
  obtain ⟨hmore, hitems⟩ := reprints_nextEntity.many (fun _ _ => endsEntity_cons rfl _) hmany
    (endsEntity_cons (c := ']') rfl rest') fun hcs =>
      (leavesOpen_cons (by decide) (by decide)).mpr
        (hopen (hclose.leavesOpen_symbol (by decide) (hlast.leavesOpen_space hcs)))
  obtain ⟨hreads, hafter⟩ := reprints_entity hfirst hentity (endsEntity_moreEntities es rest')
    fun hcs => hitems (hbetween.leavesOpen_space hcs)
  refine ⟨⟨List.cons_ne_nil _ _, hreads, hmore⟩, fun hcs => ?_⟩
  have htext : (ActionScope.slotText (some (.in (e :: es)))).toList ++ rest' =
      "action in [".toList ++ (e.toList ++ (moreEntities es ++ ']' :: rest')) := by
    rw [ActionScope.slotText, String.toList_append, String.toList_append,
      toList_intercalate_entities]
    simp
  rw [htext, leavesOpen_plain_append (by decide)]
  exact hafter (hbracket.leavesOpen_symbol (by decide)
    (hspace.leavesOpen_space (hin.leavesOpen_keyword (by decide) hcs)))

theorem reprints_action :
    Reprints action (fun a => (ActionScope.slotText a).toList) ReadsAction EndsEntity := by
  intro cs a rest rest' h hends hopen
  obtain ⟨_, _, hkeyword, h⟩ := h.of_rule.of_bind
  obtain ⟨_, _, hspace, h⟩ := h.of_bind
  have hbefore := fun hcs => hspace.leavesOpen_space (hkeyword.leavesOpen_keyword (by decide) hcs)
  rcases h.of_optional with ⟨s, rfl, hscope⟩ | ⟨rfl, rfl⟩
  · rcases hscope.of_orElse with heq | hin
    · exact (reprints_actionEq heq hends hopen).imp_right fun hafter hcs => hafter (hbefore hcs)
    · exact (reprints_actionIn hin hopen).imp_right fun hafter hcs => hafter (hbefore hcs)
  · refine ⟨trivial, fun hcs => ?_⟩
    change LeavesOpen ("action".toList ++ rest')
    rw [leavesOpen_plain_append (by decide)]
    exact hopen (hbefore hcs)

/-! ## Parts of a policy -/

/-- The slots of a policy, in front of the parenthesis behind them. -/
theorem reprints_head {cs rest rest' : List Char} {h : Head} (hfound : Found head cs h rest)
    (hopen : LeavesOpen rest → LeavesOpen (')' :: rest')) :
    h.IsReadBefore rest' ∧ (LeavesOpen cs → LeavesOpen (h.text.toList ++ ')' :: rest')) := by
  obtain ⟨principal, _, hprincipal, hfound⟩ := hfound.of_rule.of_bind
  obtain ⟨_, _, hs₁, hfound⟩ := hfound.of_bind
  obtain ⟨_, _, hcomma₁, hfound⟩ := hfound.of_bind
  obtain ⟨_, _, hs₂, hfound⟩ := hfound.of_bind
  obtain ⟨action, _, haction, hfound⟩ := hfound.of_bind
  obtain ⟨_, _, hs₃, hfound⟩ := hfound.of_bind
  obtain ⟨_, _, hcomma₂, hfound⟩ := hfound.of_bind
  obtain ⟨_, _, hs₄, hfound⟩ := hfound.of_bind
  obtain ⟨resource, _, hresource, hfound⟩ := hfound.of_bind
  obtain ⟨rfl, rfl⟩ := hfound.of_pure
  have hplain : ∀ cs, LeavesOpen (',' :: ' ' :: cs) ↔ LeavesOpen cs := fun cs => by
    rw [leavesOpen_cons (by decide) (by decide), leavesOpen_cons (by decide) (by decide)]
  -- from the last slot back to the first one
  obtain ⟨hreads₃, hopen₃⟩ := reprints_slot .resource (by decide) hresource
    (endsEntity_cons (by decide) rest') hopen
  obtain ⟨hreads₂, hopen₂⟩ := reprints_action haction
    (endsEntity_cons (c := ',') (by decide)
      (Head.textAfterAction ⟨principal, action, resource⟩ rest'))
    fun hcs => (hplain _).mpr (hopen₃ (hs₄.leavesOpen_space
      (hcomma₂.leavesOpen_symbol (by decide) (hs₃.leavesOpen_space hcs))))
  obtain ⟨hreads₁, hopen₁⟩ := reprints_slot .principal (by decide) hprincipal
    (endsEntity_cons (c := ',') (by decide)
      (Head.textAfterPrincipal ⟨principal, action, resource⟩ rest'))
    fun hcs => (hplain _).mpr (hopen₂ (hs₂.leavesOpen_space
      (hcomma₁.leavesOpen_symbol (by decide) (hs₁.leavesOpen_space hcs))))
  refine ⟨⟨hreads₁, hreads₂, hreads₃⟩, fun hcs => ?_⟩
  rw [Head.toList_text]
  exact hopen₁ hcs

theorem isIdent_plain {name : String} (h : IsIdent name) :
    ∀ c ∈ name.toList, c ≠ '"' ∧ c ≠ '\\' := by
  obtain ⟨c, cs, hname, hstart, hparts⟩ := h
  have hall : ∀ d ∈ name.toList, isIdentPart d = true := by
    rw [hname]
    refine List.forall_mem_cons.mpr ⟨?_, hparts⟩
    rw [isIdentPart, hstart, Bool.true_or]
  intro d hd
  have hpart := hall d hd
  constructor <;> rintro rfl <;> cases hpart

theorem Found.of_ident {cs rest : List Char} {name : String} (h : Found ident cs name rest) :
    IsIdent name ∧ cs = name.toList ++ rest ∧ Stops isIdentPart rest := by
  have htake := h.of_rule.of_shape
  unfold takeIdent at htake
  split at htake
  · rename_i c cs
    split at htake
    · rename_i hstart
      obtain ⟨hname, rfl⟩ := Prod.mk.inj (Option.some.inj htake)
      refine ⟨⟨c, _, hname.symm, hstart, fun d hd => List.mem_takeWhile_imp hd⟩, ?_, ?_⟩
      · rw [← hname, List.cons_append, List.takeWhile_append_dropWhile]
      · exact stops_dropWhile _ _
    · cases htake
  · cases htake

/-- A string literal closes what is open in front of it. -/
theorem Found.not_leavesOpen_string {cs rest : List Char} {value : String}
    (h : Found string cs value rest) : ¬ LeavesOpen cs := by
  obtain ⟨literal, _, hliteral, -⟩ := h.of_bind
  obtain ⟨hs, rfl⟩ := isLiteral_of_takeString hliteral.of_rule.of_shape
  exact not_leavesOpen_literal [] hs _

theorem reprints_note : Reprints note noteLine (fun a _ => IsIdent a.key) fun _ => True := by
  intro cs a rest rest' h _ hopen
  obtain ⟨_, _, hat, h⟩ := h.of_rule.of_bind
  obtain ⟨_, _, hspace, h⟩ := h.of_bind
  obtain ⟨key, _, hkey, h⟩ := h.of_bind
  obtain ⟨_, _, hspace', h⟩ := h.of_bind
  obtain ⟨value, _, hvalue, h⟩ := h.of_bind
  obtain ⟨rfl, rfl⟩ := h.of_pure
  obtain ⟨hident, hsplit, -⟩ := hkey.of_ident
  refine ⟨hident, fun hcs => ?_⟩
  have hafter : LeavesOpen (key.toList ++ _) :=
    hsplit ▸ hspace.leavesOpen_space (hat.leavesOpen_symbol (by decide) hcs)
  have hlast :=
    hspace'.leavesOpen_space ((leavesOpen_plain_append (isIdent_plain hident)).mp hafter)
  rcases hvalue.of_optional with ⟨v, rfl, hquoted⟩ | ⟨rfl, rfl⟩
  · obtain ⟨_, _, hparen, hquoted⟩ := hquoted.of_bind
    obtain ⟨_, _, hspace'', hquoted⟩ := hquoted.of_bind
    obtain ⟨_, _, hstring, -⟩ := hquoted.of_bind
    exact absurd (hspace''.leavesOpen_space (hparen.leavesOpen_symbol (by decide) hlast))
      hstring.not_leavesOpen_string
  · have htext : noteLine ⟨key, none⟩ ++ rest' = '@' :: (key.toList ++ '\n' :: rest') := by
      simp [noteLine, Note.text]
    rw [htext, leavesOpen_cons (by decide) (by decide),
      leavesOpen_plain_append (isIdent_plain hident), leavesOpen_cons (by decide) (by decide)]
    exact hopen hlast

theorem reprints_clause :
    Reprints clause clauseLine (fun c _ => IsBodyText c.body) fun _ => True := by
  intro cs c rest rest' h _ hopen
  obtain ⟨kind, _, hkind, h⟩ := h.of_rule.of_bind
  obtain ⟨_, _, hspace, h⟩ := h.of_bind
  obtain ⟨body, _, hbody, h⟩ := h.of_bind
  obtain ⟨rfl, rfl⟩ := h.of_pure
  obtain ⟨_, mid, hbrace, hbody⟩ := hbody.of_rule.of_bind
  obtain ⟨text, _, htake, hbody⟩ := hbody.of_bind
  obtain ⟨_, _, hclose, hbody⟩ := hbody.of_bind
  obtain ⟨rfl, rfl⟩ := hbody.of_pure
  have hbodyChars := isBodyChars_takeBody mid
  have hsplit := append_takeBody mid
  rw [Option.some.inj htake.of_rule.of_shape] at hbodyChars hsplit
  have htrimmed := isBodyText_trimmed hbodyChars
  rw [String.ofList_toList] at htrimmed
  refine ⟨htrimmed, fun hcs => ?_⟩
  have hmid := hbrace.leavesOpen_symbol (by decide)
    (hspace.leavesOpen_space (hkind.leavesOpen_clauseKind hcs))
  rw [← hsplit, hclose.of_symbol, List.singleton_append,
    leavesOpen_append _ (by rintro d ⟨⟩; decide), leavesOpen_cons (by decide) (by decide)] at hmid
  -- the body closes nothing, and so holds no quote, nor does what is left of it
  have hbodyOpen : LeavesOpen (trimmed text).toList := by
    refine leavesOpen_of_not_mem fun hmem => hbodyChars.not_mem_quote hmid.1 ?_
    rw [trimmed, String.toList_ofList] at hmem
    exact mem_of_mem_trim hmem
  have htext : clauseLine ⟨kind, trimmed text⟩ ++ rest' =
      '\n' :: (kind.keyword.toList ++ " \x7b ".toList) ++
        ((trimmed text).toList ++ ' ' :: '\x7d' :: rest') := by
    simp [clauseLine, Clause.text]
  rw [htext, leavesOpen_plain_append (by cases kind <;> decide),
    leavesOpen_append _ (by rintro d ⟨⟩; decide), leavesOpen_cons (by decide) (by decide),
    leavesOpen_cons (by decide) (by decide)]
  exact ⟨hbodyOpen, hopen hmid.2⟩

/-! ## Policies and documents -/

theorem reprints_policy : Reprints policy policyBlock Policy.IsReadBefore fun _ => True := by
  intro cs p rest rest' h _ hopen
  obtain ⟨notes, _, hnotes, h⟩ := h.of_rule.of_bind
  obtain ⟨_, _, hs₁, h⟩ := h.of_bind
  obtain ⟨effect, _, heffect, h⟩ := h.of_bind
  obtain ⟨_, _, hs₂, h⟩ := h.of_bind
  obtain ⟨_, _, hparen, h⟩ := h.of_bind
  obtain ⟨_, _, hs₃, h⟩ := h.of_bind
  obtain ⟨head, _, hhead, h⟩ := h.of_bind
  obtain ⟨_, _, hs₄, h⟩ := h.of_bind
  obtain ⟨_, _, hclose, h⟩ := h.of_bind
  obtain ⟨_, _, hs₅, h⟩ := h.of_bind
  obtain ⟨clauses, _, hclauses, h⟩ := h.of_bind
  obtain ⟨_, _, hs₆, h⟩ := h.of_bind
  obtain ⟨_, _, hsemicolon, h⟩ := h.of_bind
  obtain ⟨rfl, rfl⟩ := h.of_pure
  -- from the semicolon back to the annotations
  obtain ⟨hbodies, hopenClauses⟩ := reprints_clause.many (fun _ _ => trivial) hclauses trivial
    fun hcs => (leavesOpen_cons (c := ';') (by decide) (by decide)).mpr
      (hopen (hsemicolon.leavesOpen_symbol (by decide) (hs₆.leavesOpen_space hcs)))
  obtain ⟨hreads, hopenHead⟩ := reprints_head hhead fun hcs =>
    (leavesOpen_cons (by decide) (by decide)).mpr (hopenClauses (hs₅.leavesOpen_space
      (hclose.leavesOpen_symbol (by decide) (hs₄.leavesOpen_space hcs))))
  have hopenEffect : ∀ {mid}, Found space mid () _ → LeavesOpen mid →
      LeavesOpen (effect.keyword.toList ++ ['('] ++ _) := fun hspace hcs => by
    rw [leavesOpen_plain_append (by cases effect <;> decide)]
    exact hopenHead (hs₃.leavesOpen_space (hparen.leavesOpen_symbol (by decide)
      (hs₂.leavesOpen_space (heffect.leavesOpen_effect (hspace.leavesOpen_space hcs)))))
  obtain ⟨hkeys, hopenNotes⟩ := reprints_note.many (fun _ _ => trivial) hnotes trivial
    (hopenEffect hs₁)
  refine ⟨⟨hkeys.forall, hreads, hbodies.forall⟩, fun hcs => ?_⟩
  have htext : policyBlock ⟨notes, effect, head, clauses⟩ ++ rest' =
      '\n' :: '\n' :: (notes.flatMap noteLine ++ (effect.keyword.toList ++ ['('] ++
        (head.text.toList ++ ')' :: (clauses.flatMap clauseLine ++ ';' :: rest')))) := by
    rw [policyBlock, List.cons_append, List.cons_append, toList_policy]
    simp [noteLines, clauseLines]
  rw [htext, leavesOpen_cons (by decide) (by decide), leavesOpen_cons (by decide) (by decide)]
  exact hopenNotes hcs

/-- What was read from any text is read back from its print. -/
theorem Document.eachBefore_of_parse {text : String} {d : Document}
    (h : Document.parse text = .ok d) :
    EachBefore Policy.IsReadBefore policyBlock d.policies [] := by
  unfold Document.parse at h
  dsimp only at h
  split at h
  · rename_i d' place trials hread
    obtain rfl := Except.ok.inj h
    have hfound : Found document text.toList d' place.text := ⟨_, _, _, hread⟩
    obtain ⟨_, _, -, hfound⟩ := hfound.of_rule.of_bind
    obtain ⟨policies, _, hpolicies, hfound⟩ := hfound.of_bind
    obtain ⟨_, _, -, hfound⟩ := hfound.of_bind
    obtain ⟨_, _, -, hfound⟩ := hfound.of_bind
    obtain ⟨rfl, -⟩ := hfound.of_pure
    exact (reprints_policy.many (fun _ _ => trivial) hpolicies trivial
      fun _ => leavesOpen_nil).1
  · cases h

/-! ## Values of annotations -/

/-- A quoted text whose value is the text has no control characters: the letter
behind their backslash is another one. -/
theorem isControl_of_unescape_quoteBody {cs : List Char} (h : unescape (quoteBody cs) = cs) :
    ∀ c ∈ cs, isControl c = false := by
  induction cs with
  | nil => exact List.forall_mem_nil _
  | cons c cs ih =>
    rw [quoteBody_cons] at h
    rcases quoteChar_cases c with ⟨hq, -, hslash, hcontrol⟩ | ⟨e, hq, he⟩ | ⟨hcontrol, hq⟩
    · rw [hq, List.singleton_append, unescape] at h
      · exact List.forall_mem_cons.mpr ⟨hcontrol, ih (List.cons.inj h).2⟩
      · exact fun _ _ heq => absurd heq hslash
      · exact fun heq => absurd heq hslash
    · rw [hq, List.cons_append, List.singleton_append, unescape] at h
      obtain ⟨rfl, hcs⟩ := List.cons.inj h
      refine List.forall_mem_cons.mpr ⟨?_, ih hcs⟩
      simp only [List.mem_cons, Prod.mk.injEq, List.not_mem_nil, or_false] at he
      rcases he with ⟨rfl, hself⟩ | ⟨rfl, hself⟩ | ⟨rfl, hself⟩ | ⟨rfl, hself⟩ | ⟨rfl, hself⟩ <;>
        decide
    · rw [hq, List.cons_append, List.cons_append, unescape] at h
      obtain ⟨rfl, -⟩ := List.cons.inj h
      exact absurd hcontrol (by decide)

theorem rereadValue_eq_self_iff {value : String} :
    rereadValue value = value ↔ ∀ c ∈ value.toList, isControl c = false := by
  refine ⟨fun h => isControl_of_unescape_quoteBody ?_, rereadValue_eq_self⟩
  have hlist := congrArg String.toList h
  rwa [rereadValue, String.toList_ofList, stringValue, toList_quote, List.drop_one, List.tail_cons,
    List.dropLast_concat] at hlist

/-- Exactly the documents without control characters in annotations come back as
they are. -/
theorem Document.reread_eq_self_iff {d : Document} : d.reread = d ↔ d.NotesPlain := by
  refine ⟨fun h p hp a ha v hv => rereadValue_eq_self_iff.mp ?_, Document.reread_eq_self⟩
  have hpolicies : d.policies.map Policy.reread = d.policies := congrArg Document.policies h
  have hp' : p.reread = p := List.map_inj_left.mp (hpolicies.trans (List.map_id _).symm) p hp
  have hnotes : p.notes.map Note.reread = p.notes := congrArg Policy.notes hp'
  have ha' : a.reread = a := List.map_inj_left.mp (hnotes.trans (List.map_id _).symm) a ha
  have hvalue : a.value.map rereadValue = a.value := congrArg Note.value ha'
  rw [Option.mem_def.mp hv] at hvalue
  exact Option.some.inj hvalue

/-- Whatever was read from a text with any annotations, comments, spacing and
case of keywords is printed as a text that is read as the same document up to
the values of annotations, and as the same document exactly if these hold no
control characters. -/
theorem Document.parse_text_reread {text : String} {d : Document}
    (h : Document.parse text = .ok d) :
    Document.parse d.text = .ok d.reread ∧ (Document.parse d.text = .ok d ↔ d.NotesPlain) := by
  have hread := d.parse_text_of_reads (Document.eachBefore_of_parse h)
  refine ⟨hread, ?_⟩
  rw [hread, ← Document.reread_eq_self_iff]
  exact ⟨Except.ok.inj, congrArg _⟩

/-- Keywords in capitals, comments, missing blanks, and a body with a lone backslash. -/
def looseText : String :=
  "// all\n@id( \"a\\\"b\" ) PERMIT(principal ,action," ++
    "resource // any\n) WHEN\x7b\t\\ a // c\n\x7d; // end"

/-- The document that the text spells. -/
def looseDocument : Document where
  policies :=
    [{ notes := [⟨"id", some "a\"b"⟩],
       effect := .permit,
       head := {},
       clauses := [⟨.when, "\\ a // c"⟩] }]

theorem parse_text_looseDocument :
    Document.parse looseText = .ok looseDocument ∧ looseDocument.NotesPlain ∧
      Document.parse looseDocument.text = .ok looseDocument := by
  have hparse : Document.parse looseText = .ok looseDocument := by decide +kernel
  have hplain : looseDocument.NotesPlain := by
    unfold Document.NotesPlain
    decide
  exact ⟨hparse, hplain, (Document.parse_text_reread hparse).2.mpr hplain⟩

/-- A policy whose annotation holds a tab. -/
def tabbedDocument : Document where
  policies := [{ notes := [⟨"id", some "a\tb"⟩], effect := .permit, head := {} }]

/-- A tab in an annotation is printed as an escape that is read as a letter. -/
theorem parse_text_tabbedDocument :
    Document.parse "@id(\"a\tb\") permit(principal, action, resource);" = .ok tabbedDocument ∧
      Document.parse tabbedDocument.text ≠ .ok tabbedDocument := by
  constructor
  · decide +kernel
  · decide +kernel

end PolicyDialects.Cedar
