import PolicyDialects.Cedar.Reader
import PolicyDialects.Proofs.Cedar.Lexical
import PolicyDialects.Proofs.Text.Joined

/-!
# Reading printed Cedar documents

What the readers of the grammar find in printed text, whatever stands behind
it.

Results:

* `finds_note`, `finds_head`, `finds_clause`, `finds_policy`: the parts of a
  policy.
* `Document.parse_text_of_reads`: a printed document is read as itself, up to
  control characters in the values of annotations, when each entity is read in
  front of the text behind it.
* `Document.parse_text`: this is so when the entities are well spelled.
-/

namespace PolicyDialects.Cedar

open Text
open Reader

/-! ## Readers -/

section

variable {α β : Type} {r : Reader α} {cs mid rest : List Char} {a : α}

/-- Wherever the text stands, the reader finds the value and leaves the rest. -/
def Finds (r : Reader α) (cs : List Char) (a : α) (rest : List Char) : Prop :=
  ∀ offset, ∃ offset' trials, r ⟨offset, cs⟩ = (some (a, ⟨offset', rest⟩), trials)

/-- Wherever the text stands, the reader finds nothing. -/
def Misses (r : Reader α) (cs : List Char) : Prop :=
  ∀ offset, ∃ trials, r ⟨offset, cs⟩ = (none, trials)

theorem finds_pure (a : α) (cs : List Char) : Finds (Pure.pure a : Reader α) cs a cs :=
  fun offset => ⟨offset, [], rfl⟩

theorem Finds.bind {f : α → Reader β} {b : β} (h : Finds r cs a mid) (hf : Finds (f a) mid b rest) :
    Finds (r >>= f) cs b rest := by
  intro offset
  obtain ⟨o, trials, hr⟩ := h offset
  obtain ⟨o', more, hfa⟩ := hf o
  refine ⟨o', trials ++ more, ?_⟩
  show Reader.bind r f _ = _
  rw [Reader.bind, hr]
  dsimp only
  rw [hfa]

theorem Misses.bind {f : α → Reader β} (h : Misses r cs) : Misses (r >>= f) cs := by
  intro offset
  obtain ⟨trials, hr⟩ := h offset
  refine ⟨trials, ?_⟩
  show Reader.bind r f _ = _
  rw [Reader.bind, hr]

theorem Finds.misses {f : α → Reader β} (h : Finds r cs a mid) (hf : Misses (f a) mid) :
    Misses (r >>= f) cs := by
  intro offset
  obtain ⟨o, trials, hr⟩ := h offset
  obtain ⟨more, hfa⟩ := hf o
  refine ⟨trials ++ more, ?_⟩
  show Reader.bind r f _ = _
  rw [Reader.bind, hr]
  dsimp only
  rw [hfa]

theorem finds_shape {take : List Char → Option (List Char × List Char)} {s : List Char}
    (h : take cs = some (s, rest)) : Finds (shape take) cs (String.ofList s) rest := by
  intro offset
  refine ⟨((⟨offset, cs⟩ : Place).at rest).offset, [], ?_⟩
  rw [shape, h]
  rfl

theorem finds_space (h : skipSpace cs = rest) : Finds space cs () rest := by
  intro offset
  refine ⟨((⟨offset, cs⟩ : Place).at rest).offset, [], ?_⟩
  rw [space, h]
  rfl

theorem finds_symbol (s rest : List Char) : Finds (symbol s) (s ++ rest) () rest := by
  intro offset
  refine ⟨((⟨offset, s ++ rest⟩ : Place).at rest).offset, [], ?_⟩
  rw [symbol, stripPrefix?_eq_some_iff.mpr rfl]
  rfl

theorem finds_mark (c : Char) (rest : List Char) : Finds (symbol [c]) (c :: rest) () rest :=
  finds_symbol [c] rest

theorem misses_symbol {s cs : List Char} (h : stripPrefix? s cs = none) : Misses (symbol s) cs := by
  intro offset
  refine ⟨[], ?_⟩
  rw [symbol, h]

theorem finds_keyword {word : String} (h : foldCase word.toList = word.toList)
    (rest : List Char) : Finds (keyword word) (word.toList ++ rest) () rest := by
  intro offset
  refine ⟨((⟨offset, word.toList ++ rest⟩ : Place).at rest).offset, [], ?_⟩
  rw [keyword, takeKeyword_append h]
  rfl

theorem misses_keyword {word : String} (h : takeKeyword word.toList cs = none) :
    Misses (keyword word) cs := by
  intro offset
  refine ⟨[], ?_⟩
  rw [keyword, h]

theorem finds_rule {name : Rule} (h : Finds r cs a rest) : Finds (rule name r) cs a rest := by
  intro offset
  obtain ⟨o, trials, hr⟩ := h offset
  refine ⟨o, [.mk name offset false trials], ?_⟩
  rw [rule, hr]
  rfl

theorem misses_rule {name : Rule} (h : Misses r cs) : Misses (rule name r) cs := by
  intro offset
  obtain ⟨trials, hr⟩ := h offset
  refine ⟨[.mk name offset true trials], ?_⟩
  rw [rule, hr]
  rfl

theorem finds_orElse_left {s : Reader α} (h : Finds r cs a rest) :
    Finds (orElse r s) cs a rest := by
  intro offset
  obtain ⟨o, trials, hr⟩ := h offset
  exact ⟨o, trials, by rw [orElse, hr]⟩

theorem finds_orElse_right {s : Reader α} (h : Misses r cs) (hs : Finds s cs a rest) :
    Finds (orElse r s) cs a rest := by
  intro offset
  obtain ⟨trials, hr⟩ := h offset
  obtain ⟨o, more, hs⟩ := hs offset
  exact ⟨o, trials ++ more, by rw [orElse, hr]; dsimp only; rw [hs]⟩

theorem misses_orElse {s : Reader α} (h : Misses r cs) (hs : Misses s cs) :
    Misses (orElse r s) cs := by
  intro offset
  obtain ⟨trials, hr⟩ := h offset
  obtain ⟨more, hs⟩ := hs offset
  exact ⟨trials ++ more, by rw [orElse, hr]; dsimp only; rw [hs]⟩

theorem finds_optional (h : Finds r cs a rest) : Finds (optional r) cs (some a) rest := by
  intro offset
  obtain ⟨o, trials, hr⟩ := h offset
  exact ⟨o, trials, by rw [Reader.optional, hr]⟩

theorem finds_optional_none (h : Misses r cs) : Finds (optional r) cs none cs := by
  intro offset
  obtain ⟨trials, hr⟩ := h offset
  exact ⟨offset, trials, by rw [Reader.optional, hr]⟩

/-! ## Repetition -/

/-- The values that a reader finds one after the other behind the first one,
each behind space, and the rest. -/
inductive FindsMore (r : Reader α) : List Char → List α → List Char → Prop where
  | stop {cs : List Char} (h : Misses (space >>= fun _ => r) cs) : FindsMore r cs [] cs
  | more {cs mid rest : List Char} {a : α} {as : List α}
      (h : Finds (space >>= fun _ => r) cs a mid) (hlt : mid.length < cs.length)
      (hmore : FindsMore r mid as rest) : FindsMore r cs (a :: as) rest

theorem finds_go {as : List α} (h : FindsMore r cs as rest) (offset : Nat) :
    ∃ offset' trials, many.go r ⟨offset, cs⟩ = (as, ⟨offset', rest⟩, trials) := by
  induction h generalizing offset with
  | stop h =>
    obtain ⟨trials, hr⟩ := h offset
    exact ⟨offset, trials, by rw [many.go, hr]⟩
  | more h hlt _ ih =>
    obtain ⟨o, trials, hr⟩ := h offset
    obtain ⟨o', more, hgo⟩ := ih o
    refine ⟨o', trials ++ more, ?_⟩
    rw [many.go, hr]
    dsimp only
    rw [if_pos hlt, hgo]

theorem finds_many_nil (h : Misses r cs) : Finds (many r) cs [] cs := by
  intro offset
  obtain ⟨trials, hr⟩ := h offset
  exact ⟨offset, trials, by rw [many, hr]⟩

theorem finds_many_cons {as : List α} (h : Finds r cs a mid) (hmore : FindsMore r mid as rest) :
    Finds (many r) cs (a :: as) rest := by
  intro offset
  obtain ⟨o, trials, hr⟩ := h offset
  obtain ⟨o', more, hgo⟩ := finds_go hmore o
  exact ⟨o', trials ++ more, by rw [many, hr]; dsimp only; rw [hgo]⟩

end

/-! ## Lists of printed values -/

/-- Each of the values fits in front of the text of those behind it and the
rest. -/
def EachBefore {α : Type} (fits : α → List Char → Prop) (print : α → List Char) :
    List α → List Char → Prop
  | [], _ => True
  | a :: as, rest => fits a (as.flatMap print ++ rest) ∧ EachBefore fits print as rest

theorem eachBefore_of_forall {α : Type} {fits : α → List Char → Prop} {print : α → List Char}
    {as : List α} {rest : List Char}
    (h : ∀ a ∈ as, ∀ bs : List α, fits a (bs.flatMap print ++ rest)) :
    EachBefore fits print as rest := by
  induction as with
  | nil => trivial
  | cons a as ih =>
    exact ⟨h a List.mem_cons_self as, ih fun b hb => h b (List.mem_cons_of_mem _ hb)⟩

theorem EachBefore.forall {α : Type} {holds : α → Prop} {print : α → List Char} {as : List α}
    {rest : List Char} (h : EachBefore (fun a _ => holds a) print as rest) : ∀ a ∈ as, holds a := by
  induction as with
  | nil => exact List.forall_mem_nil _
  | cons a as ih => exact List.forall_mem_cons.mpr ⟨h.1, ih h.2⟩

/-! ## Words and entities -/

theorem finds_ident {name : String} (h : IsIdent name) {rest : List Char}
    (hrest : Stops isIdentPart rest) : Finds ident (name.toList ++ rest) name rest := by
  have hshape := finds_shape (takeIdent_append h hrest)
  rw [String.ofList_toList] at hshape
  exact finds_rule hshape

/-- The value of an annotation as it is read back. -/
def rereadValue (value : String) : String := String.ofList (stringValue (quote value).toList)

/-- The annotation as it is read back. -/
def Note.reread (a : Note) : Note := { a with value := a.value.map rereadValue }

theorem finds_string (value : String) (rest : List Char) :
    Finds string ((quote value).toList ++ rest) (rereadValue value) rest := by
  have hshape := finds_shape (takeString_append (isLiteral_quote value) rest)
  have hvalue := finds_pure (rereadValue value) rest
  exact (finds_rule hshape).bind (by rw [String.toList_ofList]; exact hvalue)

theorem finds_effect (e : Effect) (rest : List Char) :
    Finds effect (e.keyword.toList ++ rest) e rest := by
  cases e with
  | permit =>
    exact finds_rule (finds_orElse_left ((finds_keyword (by decide) rest).bind (finds_pure _ rest)))
  | forbid =>
    have hmiss : Misses (keyword "permit") ("forbid".toList ++ rest) := misses_keyword rfl
    exact finds_rule (finds_orElse_right hmiss.bind
      ((finds_keyword (by decide) rest).bind (finds_pure _ rest)))

theorem finds_clauseKind (k : ClauseKind) (rest : List Char) :
    Finds clauseKind (k.keyword.toList ++ rest) k rest := by
  cases k with
  | «when» =>
    exact finds_rule (finds_orElse_left ((finds_keyword (by decide) rest).bind (finds_pure _ rest)))
  | «unless» =>
    have hmiss : Misses (keyword "when") ("unless".toList ++ rest) := misses_keyword rfl
    exact finds_rule (finds_orElse_right hmiss.bind
      ((finds_keyword (by decide) rest).bind (finds_pure _ rest)))

theorem finds_scopeOp (op : ScopeOperator) (rest : List Char) :
    Finds scopeOp (op.keyword.toList ++ rest) op rest := by
  cases op with
  | eq =>
    exact finds_rule (finds_orElse_left ((finds_symbol ['=', '='] rest).bind (finds_pure _ rest)))
  | «in» =>
    have hmiss : Misses (symbol ['=', '=']) ("in".toList ++ rest) := misses_symbol rfl
    exact finds_rule (finds_orElse_right hmiss.bind
      ((finds_keyword (by decide) rest).bind (finds_pure _ rest)))

/-- In front of this text the entity is read as it is. -/
structure ReadsEntity (e : String) (rest : List Char) : Prop where
  take : takeEntity (e.toList ++ rest) = some (e.toList, rest)
  starts : StartsToken (e.toList ++ rest)

/-- An entity without open quotes is read as it is in front of any delimiter. -/
theorem IsEntityText.readsEntity {e : String} (h : IsEntityText e) {rest : List Char}
    (hrest : EndsEntity rest) : ReadsEntity e rest :=
  ⟨takeEntity_append h hrest, startsToken_entity h hrest⟩

theorem finds_entity {e : String} {rest : List Char} (h : ReadsEntity e rest) :
    Finds entity (e.toList ++ rest) e rest := by
  have hshape := finds_shape h.take
  rw [String.ofList_toList] at hshape
  exact finds_rule hshape

/-- A blank and the entity behind it. -/
theorem finds_space_entity {e : String} {rest : List Char} (h : ReadsEntity e rest) :
    Finds space (' ' :: (e.toList ++ rest)) () (e.toList ++ rest) := by
  refine finds_space ?_
  rw [skipSpace_blank (by decide), skipSpace_of_startsToken h.starts]

theorem finds_no_space {c : Char} (hspace : isSpace c = false) (hslash : c ≠ '/')
    (cs : List Char) : Finds space (c :: cs) () (c :: cs) :=
  finds_space (skipSpace_of_startsToken (startsToken_cons hspace hslash cs))

theorem finds_blank {c : Char} (hspace : isSpace c = false) (hslash : c ≠ '/') (cs : List Char) :
    Finds space (' ' :: c :: cs) () (c :: cs) := by
  refine finds_space ?_
  rw [skipSpace_blank (by decide),
    skipSpace_of_startsToken (startsToken_cons hspace hslash cs)]

/-! ## Slots -/

/-- The principal or resource slot, up to the comma or parenthesis behind it. -/
theorem finds_slot (name : Rule) {slotName : String} (hname : foldCase slotName.toList =
    slotName.toList) {c : Option Scope} {d : Char} (hd : d = ',' ∨ d = ')') {rest : List Char}
    (hc : ∀ s ∈ c, ReadsEntity s.entity (d :: rest)) :
    Finds (slot name slotName) ((Scope.slotText slotName c).toList ++ d :: rest) c (d :: rest) := by
  have hword := fun cs => finds_keyword hname cs
  cases c with
  | none =>
    have hspace : Finds space (d :: rest) () (d :: rest) := by
      rcases hd with rfl | rfl <;> exact finds_no_space (by decide) (by decide) rest
    have hmiss : Misses scopeOp (d :: rest) := by
      refine misses_rule (misses_orElse ?_ ?_)
      · refine (misses_symbol ?_).bind
        rcases hd with rfl | rfl <;> rfl
      · refine (misses_keyword ?_).bind
        rcases hd with rfl | rfl <;> rfl
    exact finds_rule ((hword _).bind (hspace.bind (finds_optional_none hmiss.bind)))
  | some s =>
    have hentity := hc s rfl
    have htext : (Scope.slotText slotName (some s)).toList ++ d :: rest =
        slotName.toList ++ (' ' :: (s.operator.keyword.toList ++
          (' ' :: (s.entity.toList ++ d :: rest)))) := by
      simp [Scope.slotText]
    have hspace : Finds space (' ' :: (s.operator.keyword.toList ++
        (' ' :: (s.entity.toList ++ d :: rest)))) ()
        (s.operator.keyword.toList ++ (' ' :: (s.entity.toList ++ d :: rest))) := by
      cases s.operator <;> exact finds_blank (by decide) (by decide) _
    rw [htext]
    refine finds_rule ((hword _).bind (hspace.bind (finds_optional ?_)))
    refine (finds_scopeOp s.operator _).bind ((finds_space_entity hentity).bind ?_)
    exact (finds_entity hentity).bind (finds_pure s _)

/-- One action. -/
theorem finds_actionEq {e : String} {rest : List Char} (h : ReadsEntity e rest) :
    Finds actionEq ('=' :: '=' :: ' ' :: (e.toList ++ rest)) (.eq e) rest := by
  refine finds_rule ((finds_symbol ['=', '='] _).bind ((finds_space_entity h).bind ?_))
  exact (finds_entity h).bind (finds_pure _ _)

/-- The text of an entity behind the first one of a list. -/
def entityItem (e : String) : List Char := ',' :: ' ' :: e.toList

/-- The text of the entities behind the first one of a list. -/
def moreEntities (es : List String) : List Char := es.flatMap entityItem

/-- A comma and an entity. -/
def nextEntity : Reader String := do
  symbol [',']; space
  entity

theorem endsEntity_cons {c : Char} (h : endsEntity c = true) (cs : List Char) :
    EndsEntity (c :: cs) := by
  rintro x hx
  obtain rfl : c = x := Option.some.inj hx
  exact h

theorem endsEntity_moreEntities (es : List String) (rest : List Char) :
    EndsEntity (moreEntities es ++ ']' :: rest) := by
  cases es with
  | nil => exact endsEntity_cons rfl _
  | cons e es => exact endsEntity_cons rfl _

theorem finds_nextEntity {e : String} {rest : List Char} (h : ReadsEntity e rest) :
    Finds nextEntity (',' :: ' ' :: (e.toList ++ rest)) e rest := by
  refine (finds_mark ',' _).bind ((finds_space_entity h).bind ?_)
  exact finds_entity h

theorem eachBefore_readsEntity {es : List String} (h : ∀ e ∈ es, IsEntityText e)
    (rest : List Char) : EachBefore ReadsEntity entityItem es (']' :: rest) :=
  eachBefore_of_forall fun e he fs =>
    (h e he).readsEntity (endsEntity_moreEntities fs rest)

theorem findsMore_entities {es : List String} {rest : List Char}
    (h : EachBefore ReadsEntity entityItem es (']' :: rest)) :
    FindsMore nextEntity (moreEntities es ++ ']' :: rest) es (']' :: rest) := by
  induction es with
  | nil =>
    have hmiss : Misses nextEntity (']' :: rest) := (misses_symbol rfl).bind
    exact .stop ((finds_no_space (by decide) (by decide) rest).misses hmiss)
  | cons e es ih =>
    have hnext : Finds nextEntity (',' :: ' ' :: (e.toList ++ (moreEntities es ++ ']' :: rest))) e
        (moreEntities es ++ ']' :: rest) := finds_nextEntity h.1
    have hmore := ih h.2
    have htext : moreEntities (e :: es) ++ ']' :: rest =
        ',' :: ' ' :: (e.toList ++ (moreEntities es ++ ']' :: rest)) := by
      simp [moreEntities, entityItem]
    rw [htext]
    refine .more ((finds_no_space (by decide) (by decide) _).bind hnext) ?_ hmore
    simp only [List.length_cons, List.length_append]
    omega

theorem toList_intercalate_entities (e : String) (es : List String) :
    (", ".intercalate (e :: es)).toList = e.toList ++ moreEntities es :=
  toList_intercalate_cons ", " e es

/-- A list of actions. -/
theorem finds_actionIn {e : String} {es : List String} {rest : List Char}
    (h : EachBefore ReadsEntity entityItem (e :: es) (']' :: rest)) :
    Finds actionIn ("in [".toList ++ ((", ".intercalate (e :: es)).toList ++ ']' :: rest))
      (.in (e :: es)) rest := by
  obtain ⟨hfirst, hmore⟩ := h
  have htext : "in [".toList ++ ((", ".intercalate (e :: es)).toList ++ ']' :: rest) =
      "in".toList ++ (' ' :: '[' :: (e.toList ++ (moreEntities es ++ ']' :: rest))) := by
    rw [toList_intercalate_entities]
    simp
  have hspace : Finds space (e.toList ++ (moreEntities es ++ ']' :: rest)) ()
      (e.toList ++ (moreEntities es ++ ']' :: rest)) :=
    finds_space (skipSpace_of_startsToken hfirst.starts)
  have hlist : Finds (many nextEntity) (moreEntities es ++ ']' :: rest) es (']' :: rest) := by
    cases es with
    | nil => exact finds_many_nil (misses_symbol rfl).bind
    | cons f es =>
      have hnext := finds_nextEntity hmore.1
      have hrest := findsMore_entities hmore.2
      have hcons : moreEntities (f :: es) ++ ']' :: rest =
          ',' :: ' ' :: (f.toList ++ (moreEntities es ++ ']' :: rest)) := by
        simp [moreEntities, entityItem]
      rw [hcons]
      exact finds_many_cons hnext hrest
  have hbefore : Finds space (moreEntities es ++ ']' :: rest) ()
      (moreEntities es ++ ']' :: rest) := by
    cases es with
    | nil => exact finds_no_space (by decide) (by decide) _
    | cons f es => exact finds_no_space (by decide) (by decide) _
  rw [htext]
  refine finds_rule ((finds_keyword (by decide) _).bind ?_)
  refine (finds_blank (by decide) (by decide) _).bind ((finds_mark '[' _).bind ?_)
  refine hspace.bind ((finds_entity hfirst).bind (hbefore.bind (hlist.bind ?_)))
  refine (finds_no_space (by decide) (by decide) rest).bind ((finds_mark ']' rest).bind ?_)
  exact finds_pure _ _

/-- The entities of an action slot are read as they are, and there is at least
one. -/
def ReadsAction (a : Option ActionScope) (rest : List Char) : Prop :=
  match a with
  | none => True
  | some (.eq e) => ReadsEntity e rest
  | some (.in es) => es ≠ [] ∧ EachBefore ReadsEntity entityItem es (']' :: rest)

/-- The action slot, up to the comma behind it. -/
theorem finds_action {a : Option ActionScope} {rest : List Char}
    (ha : ReadsAction a (',' :: rest)) :
    Finds action ((ActionScope.slotText a).toList ++ ',' :: rest) a (',' :: rest) := by
  have hword : ∀ cs, Finds (keyword "action") ("action".toList ++ cs) () cs :=
    finds_keyword (by decide)
  match a with
  | none =>
    have hmissEq : Misses actionEq (',' :: rest) := misses_rule (misses_symbol rfl).bind
    have hmissIn : Misses actionIn (',' :: rest) := misses_rule (misses_keyword rfl).bind
    refine finds_rule ((hword _).bind ((finds_no_space (by decide) (by decide) rest).bind ?_))
    exact finds_optional_none (misses_orElse hmissEq hmissIn)
  | some (.eq e) =>
    have htext : (ActionScope.slotText (some (.eq e))).toList ++ ',' :: rest =
        "action".toList ++ (' ' :: '=' :: '=' :: ' ' :: (e.toList ++ ',' :: rest)) := by
      simp [ActionScope.slotText]
    rw [htext]
    refine finds_rule ((hword _).bind ((finds_blank (by decide) (by decide) _).bind ?_))
    exact finds_optional (finds_orElse_left (finds_actionEq ha))
  | some (.in es) =>
    obtain ⟨hne, hentities⟩ := ha
    match es with
    | [] => exact absurd rfl hne
    | e :: es =>
      have hlist := finds_actionIn hentities
      have htext : (ActionScope.slotText (some (.in (e :: es)))).toList ++ ',' :: rest =
          "action".toList ++ (' ' :: ("in [".toList ++
            ((", ".intercalate (e :: es)).toList ++ ']' :: ',' :: rest))) := by
        simp [ActionScope.slotText]
      have hmiss : ∀ cs, Misses actionEq ("in [".toList ++ cs) := fun cs =>
        misses_rule (misses_symbol rfl).bind
      rw [htext]
      refine finds_rule ((hword _).bind ((finds_blank (by decide) (by decide) _).bind ?_))
      exact finds_optional (finds_orElse_right (hmiss _) hlist)

/-! ## Parts of a policy -/

/-- The entities of a head. -/
def Head.entities (h : Head) : List String :=
  h.principal.toList.map (·.entity) ++ h.action.toList.flatMap ActionScope.entities ++
    h.resource.toList.map (·.entity)

/-- Keys are identifiers, entities and bodies keep together wherever they stand,
and no list of actions is empty. -/
structure Policy.IsSpelled (p : Policy) : Prop where
  keys : ∀ a ∈ p.notes, IsIdent a.key
  entities : ∀ e ∈ p.head.entities, IsEntityText e
  actions : p.head.action ≠ some (.in [])
  bodies : ∀ c ∈ p.clauses, IsBodyText c.body

/-- The text of a head behind its principal slot. -/
def Head.textAfterPrincipal (h : Head) (rest : List Char) : List Char :=
  ' ' :: ((ActionScope.slotText h.action).toList ++ ',' :: (' ' ::
    ((Scope.slotText "resource" h.resource).toList ++ ')' :: rest)))

/-- The text of a head behind its action slot. -/
def Head.textAfterAction (h : Head) (rest : List Char) : List Char :=
  ' ' :: ((Scope.slotText "resource" h.resource).toList ++ ')' :: rest)

/-- In front of a parenthesis and this text, every entity of the head is read as
it is. -/
structure Head.IsReadBefore (h : Head) (rest : List Char) : Prop where
  principal : ∀ s ∈ h.principal, ReadsEntity s.entity (',' :: h.textAfterPrincipal rest)
  action : ReadsAction h.action (',' :: h.textAfterAction rest)
  resource : ∀ s ∈ h.resource, ReadsEntity s.entity (')' :: rest)

/-- Entities without open quotes are read as they are wherever they stand. -/
theorem Head.isReadBefore {h : Head} (hentities : ∀ e ∈ h.entities, IsEntityText e)
    (hactions : h.action ≠ some (.in [])) (rest : List Char) : h.IsReadBefore rest := by
  refine ⟨fun s hs => ?_, ?_, fun s hs => ?_⟩
  · have hentity := hentities s.entity (by simp [Head.entities, Option.mem_def.mp hs])
    exact hentity.readsEntity (endsEntity_cons rfl _)
  · have haction : ∀ s ∈ h.action, ∀ e ∈ s.entities, IsEntityText e := fun s hs e he =>
      hentities e (by simp [Head.entities, Option.mem_def.mp hs, he])
    generalize h.action = a at haction hactions
    match a with
    | none => trivial
    | some (.eq e) =>
      exact (haction _ rfl e List.mem_cons_self).readsEntity (endsEntity_cons rfl _)
    | some (.in es) =>
      exact ⟨fun hnil => hactions (by rw [hnil]),
        eachBefore_readsEntity (haction _ rfl) _⟩
  · have hentity := hentities s.entity (by simp [Head.entities, Option.mem_def.mp hs])
    exact hentity.readsEntity (endsEntity_cons rfl _)

theorem Head.toList_text (h : Head) (rest : List Char) :
    h.text.toList ++ ')' :: rest =
      (Scope.slotText "principal" h.principal).toList ++ ',' :: h.textAfterPrincipal rest := by
  simp [Head.text, Head.textAfterPrincipal]

/-- The slots of a policy, up to the parenthesis behind them. -/
theorem finds_head {h : Head} {rest : List Char} (hreads : h.IsReadBefore rest) :
    Finds head (h.text.toList ++ ')' :: rest) h (')' :: rest) := by
  have haction' : ∃ ds, (ActionScope.slotText h.action).toList = 'a' :: ds := by
    rcases h.action with _ | (_ | _) <;> simp [ActionScope.slotText]
  have hresource' : ∃ ds, (Scope.slotText "resource" h.resource).toList = 'r' :: ds := by
    cases h.resource <;> simp [Scope.slotText]
  have hspace : ∀ {cs rest : List Char} {d : Char}, (∃ ds, cs = d :: ds) → isSpace d = false →
      d ≠ '/' → Finds space (' ' :: (cs ++ rest)) () (cs ++ rest) := by
    rintro cs rest d ⟨ds, rfl⟩ hd hslash
    exact finds_blank hd hslash _
  rw [h.toList_text]
  refine finds_rule ((finds_slot .principal (by decide) (.inl rfl) hreads.principal).bind ?_)
  refine (finds_no_space (by decide) (by decide) _).bind ((finds_mark ',' _).bind ?_)
  refine (hspace haction' (by decide) (by decide)).bind ((finds_action hreads.action).bind ?_)
  refine (finds_no_space (by decide) (by decide) _).bind ((finds_mark ',' _).bind ?_)
  refine (hspace hresource' (by decide) (by decide)).bind ?_
  exact (finds_slot .resource (by decide) (.inr rfl) hreads.resource).bind (finds_pure _ _)

/-- The braces of a clause. -/
theorem finds_body {b : String} (h : IsBodyText b) (rest : List Char) :
    Finds body ('\x7b' :: ' ' :: (b.toList ++ ' ' :: '\x7d' :: rest)) b rest := by
  have hchars : IsBodyChars (' ' :: (b.toList ++ [' '])) := by
    have hblank : IsBodyChars [' '] := isBodyChars_plain (by decide)
    exact .char (by decide) (by decide) (by decide) (h.chars.append hblank)
  have htake := takeBody_append hchars rest
  have htrim : trimmed (String.ofList (' ' :: (b.toList ++ [' ']))) = b := by
    have hown : trim b.toList = b.toList := by
      have := congrArg String.toList h.trimmed
      rwa [trimmed, String.toList_ofList] at this
    have hblank : ∀ c ∈ [' '], isBlank c = true := by decide
    have hinner : trim (' ' :: (b.toList ++ [' '])) = b.toList :=
      trim_append_blanks hblank hblank hown
    rw [trimmed, String.toList_ofList, hinner, String.ofList_toList]
  have htext : ' ' :: (b.toList ++ ' ' :: '\x7d' :: rest) =
      ' ' :: (b.toList ++ [' ']) ++ '\x7d' :: rest := by simp
  have hshape : Finds (shape fun cs => some (takeBody cs))
      (' ' :: (b.toList ++ ' ' :: '\x7d' :: rest)) (String.ofList (' ' :: (b.toList ++ [' '])))
      ('\x7d' :: rest) := by
    rw [htext]
    exact finds_shape (by rw [htake])
  have hpure := finds_pure (trimmed (String.ofList (' ' :: (b.toList ++ [' '])))) rest
  rw [htrim] at hpure
  refine finds_rule ((finds_mark '\x7b' _).bind ((finds_rule hshape).bind ?_))
  refine (finds_mark '\x7d' rest).bind ?_
  rw [htrim]
  exact hpure

theorem finds_clause {c : Clause} (h : IsBodyText c.body) (rest : List Char) :
    Finds clause (c.text.toList ++ rest) c rest := by
  have htext : c.text.toList ++ rest =
      c.kind.keyword.toList ++
        (' ' :: '\x7b' :: ' ' :: (c.body.toList ++ ' ' :: '\x7d' :: rest)) := by
    simp [Clause.text]
  rw [htext]
  refine finds_rule ((finds_clauseKind c.kind _).bind ?_)
  refine (finds_blank (by decide) (by decide) _).bind ((finds_body h rest).bind ?_)
  exact finds_pure _ _

/-- An annotation on a line of its own. The line break behind it may be read,
too. -/
theorem finds_note {a : Note} (h : IsIdent a.key) {c : Char} (hspace : isSpace c = false)
    (hslash : c ≠ '/') (hparen : c ≠ '(') (cs : List Char) :
    ∃ mid, Finds note (a.text.toList ++ '\n' :: c :: cs) a.reread mid ∧
      (mid = c :: cs ∨ mid = '\n' :: c :: cs) := by
  obtain ⟨key, value⟩ := a
  have hbreak : skipSpace ('\n' :: c :: cs) = c :: cs := by
    rw [skipSpace_blank (by decide), skipSpace_of_startsToken (startsToken_cons hspace hslash cs)]
  have hkey : ∀ rest, Finds space (key.toList ++ rest) () (key.toList ++ rest) := by
    intro rest
    obtain ⟨d, ds, hd, hstart, -⟩ := h
    have hascii : d.toNat < 128 := by
      simp only [isIdentStart, Bool.or_eq_true, beq_iff_eq] at hstart
      rcases hstart with hstart | rfl
      · exact toNat_lt_of_isLetter hstart
      · decide
    have hd' : isSpace d = false ∧ d ≠ '/' := by
      revert hstart
      exact of_ascii hascii (by decide)
    rw [hd]
    exact finds_no_space hd'.1 hd'.2 _
  cases value with
  | none =>
    have htext : (Note.text ⟨key, none⟩).toList ++ '\n' :: c :: cs =
        '@' :: (key.toList ++ '\n' :: c :: cs) := by
      simp [Note.text]
    have hmiss : Misses (symbol ['(']) (c :: cs) := by
      refine misses_symbol ?_
      rw [stripPrefix?, if_neg fun h => hparen h.symm]
    refine ⟨c :: cs, ?_, .inl rfl⟩
    rw [htext]
    refine finds_rule ((finds_mark '@' _).bind ((hkey _).bind ?_))
    refine (finds_ident h (stops_cons (by decide) _)).bind ((finds_space hbreak).bind ?_)
    exact (finds_optional_none hmiss.bind).bind (finds_pure _ _)
  | some v =>
    have htext : (Note.text ⟨key, some v⟩).toList ++ '\n' :: c :: cs =
        '@' :: (key.toList ++ '(' :: ((quote v).toList ++ ')' :: '\n' :: c :: cs)) := by
      simp [Note.text]
    have hquote : Finds space ((quote v).toList ++ ')' :: '\n' :: c :: cs) ()
        ((quote v).toList ++ ')' :: '\n' :: c :: cs) := by
      rw [toList_quote]
      exact finds_no_space (by decide) (by decide) _
    have hvalue : Finds (do symbol ['(']; space; let value ← string; space; symbol [')']
                            return value : Reader String)
        ('(' :: ((quote v).toList ++ ')' :: '\n' :: c :: cs)) (rereadValue v) ('\n' :: c :: cs) := by
      refine (finds_mark '(' _).bind (hquote.bind ((finds_string v _).bind ?_))
      refine (finds_no_space (by decide) (by decide) _).bind ((finds_mark ')' _).bind ?_)
      exact finds_pure (rereadValue v) _
    refine ⟨'\n' :: c :: cs, ?_, .inr rfl⟩
    rw [htext]
    refine finds_rule ((finds_mark '@' _).bind ((hkey _).bind ?_))
    refine (finds_ident h (stops_cons (by decide) _)).bind ?_
    refine (finds_no_space (by decide) (by decide) _).bind ((finds_optional hvalue).bind ?_)
    exact finds_pure _ _

/-! ## Lists of annotations and clauses -/

/-- The policy as it is read back from its text. -/
def Policy.reread (p : Policy) : Policy :=
  { p with notes := p.notes.map Note.reread }

/-- The text of an annotation, as a line. -/
def noteLine (a : Note) : List Char := a.text.toList ++ ['\n']

/-- The text of annotations, a line each. -/
def noteLines (notes : List Note) : List Char := notes.flatMap noteLine

theorem toList_eachBefore (notes : List Note) :
    (eachBefore "\n" (notes.map Note.text)).toList = noteLines notes := by
  induction notes with
  | nil => rfl
  | cons a notes ih =>
    simp only [List.map_cons, eachBefore, String.toList_append, ih, noteLines, List.flatMap_cons]
    rfl

/-- The text of a clause, on a line behind a line break. -/
def clauseLine (c : Clause) : List Char := '\n' :: c.text.toList

/-- The text of clauses, each on a line behind a line break. -/
def clauseLines (clauses : List Clause) : List Char := clauses.flatMap clauseLine

theorem toList_eachAfter (clauses : List Clause) :
    (eachAfter "\n" (clauses.map Clause.text)).toList = clauseLines clauses := by
  induction clauses with
  | nil => rfl
  | cons c clauses ih =>
    simp only [List.map_cons, eachAfter, String.toList_append, ih, clauseLines, List.flatMap_cons]
    rfl

/-- Where a policy goes on behind its annotations: at its effect. -/
def StartsEffect (cs : List Char) : Prop :=
  ∃ c ds, cs = c :: ds ∧ isSpace c = false ∧ c ≠ '/' ∧ c ≠ '(' ∧ c ≠ '@'

theorem exists_cons_noteLines (notes : List Note) {cs : List Char} (h : StartsEffect cs) :
    ∃ c ds, noteLines notes ++ cs = c :: ds ∧ isSpace c = false ∧ c ≠ '/' ∧ c ≠ '(' := by
  cases notes with
  | nil =>
    obtain ⟨c, ds, rfl, hspace, hslash, hparen, -⟩ := h
    exact ⟨c, ds, rfl, hspace, hslash, hparen⟩
  | cons a notes =>
    obtain ⟨key, value⟩ := a
    have hat : noteLines (⟨key, value⟩ :: notes) ++ cs =
        '@' :: (noteLines (⟨key, value⟩ :: notes) ++ cs).tail := by
      cases value <;> simp [noteLines, noteLine, Note.text]
    exact ⟨'@', _, hat, by decide, by decide, by decide⟩

theorem skipSpace_line {mid : List Char} {c : Char} {ds : List Char} (hspace : isSpace c = false)
    (hslash : c ≠ '/') (hmid : mid = c :: ds ∨ mid = '\n' :: c :: ds) :
    skipSpace mid = c :: ds := by
  have h := skipSpace_of_startsToken (startsToken_cons hspace hslash ds)
  rcases hmid with rfl | rfl
  · exact h
  · rw [skipSpace_blank (by decide), h]

theorem misses_note {cs : List Char} (h : StartsEffect cs) : Misses note cs := by
  obtain ⟨c, ds, rfl, -, -, -, hat⟩ := h
  refine misses_rule (misses_symbol ?_).bind
  rw [stripPrefix?, if_neg fun h => hat h.symm]

/-- The annotations behind the first one. -/
theorem findsMore_notes {notes : List Note} (h : ∀ a ∈ notes, IsIdent a.key) {cs mid : List Char}
    (hcs : StartsEffect cs)
    (hmid : mid = noteLines notes ++ cs ∨ mid = '\n' :: (noteLines notes ++ cs)) :
    ∃ last, FindsMore note mid (notes.map Note.reread) last ∧
      (last = cs ∨ last = '\n' :: cs) := by
  induction notes generalizing mid with
  | nil =>
    have hmiss := misses_note hcs
    obtain ⟨c, ds, rfl, hspace, hslash, -⟩ := hcs
    exact ⟨mid, .stop ((finds_space (skipSpace_line hspace hslash hmid)).misses hmiss), hmid⟩
  | cons a notes ih =>
    obtain ⟨c, ds, hline, hspace, hslash, -⟩ := exists_cons_noteLines (a :: notes) hcs
    obtain ⟨c', ds', hline', hspace', hslash', hparen'⟩ := exists_cons_noteLines notes hcs
    obtain ⟨next, hnote, hnext⟩ :=
      finds_note (h a List.mem_cons_self) hspace' hslash' hparen' ds'
    have htext : noteLines (a :: notes) ++ cs = a.text.toList ++ '\n' :: c' :: ds' := by
      rw [← hline']; simp [noteLines, noteLine]
    rw [← hline'] at hnext
    obtain ⟨last, hmore, hlast⟩ := ih (fun x hx => h x (List.mem_cons_of_mem _ hx)) hnext
    have hskip : skipSpace mid = a.text.toList ++ '\n' :: c' :: ds' := by
      rw [← htext, hline]
      rw [hline] at hmid
      exact skipSpace_line hspace hslash hmid
    have hlength : next.length < mid.length := by
      have htext_pos : 0 < a.text.toList.length := by
        obtain ⟨key, value⟩ := a
        cases value <;> simp [Note.text]
      have hnext_le : next.length ≤ (noteLines notes ++ cs).length + 1 := by
        rcases hnext with rfl | rfl <;> simp
      have hmid_le : (noteLines (a :: notes) ++ cs).length ≤ mid.length := by
        rcases hmid with rfl | rfl <;> simp
      rw [htext, ← hline', List.length_append, List.length_cons] at hmid_le
      omega
    exact ⟨last, .more ((finds_space hskip).bind hnote) hlength hmore, hlast⟩

/-- The annotations of a policy. -/
theorem finds_notes {notes : List Note} (h : ∀ a ∈ notes, IsIdent a.key) {cs : List Char}
    (hcs : StartsEffect cs) :
    ∃ last, Finds (many note) (noteLines notes ++ cs)
        (notes.map Note.reread) last ∧
      (last = cs ∨ last = '\n' :: cs) := by
  cases notes with
  | nil => exact ⟨cs, finds_many_nil (misses_note hcs), .inl rfl⟩
  | cons a notes =>
    obtain ⟨c, ds, hline, hspace, hslash, hparen⟩ := exists_cons_noteLines notes hcs
    obtain ⟨next, hnote, hnext⟩ := finds_note (h a List.mem_cons_self) hspace hslash hparen ds
    have htext : noteLines (a :: notes) ++ cs = a.text.toList ++ '\n' :: c :: ds := by
      rw [← hline]; simp [noteLines, noteLine]
    rw [← hline] at hnext
    obtain ⟨last, hmore, hlast⟩ :=
      findsMore_notes (fun x hx => h x (List.mem_cons_of_mem _ hx)) hcs hnext
    rw [htext]
    exact ⟨last, finds_many_cons hnote hmore, hlast⟩

theorem misses_clause (rest : List Char) : Misses clause (';' :: rest) := by
  refine misses_rule (misses_rule (misses_orElse ?_ ?_)).bind
  · exact (misses_keyword rfl).bind
  · exact (misses_keyword rfl).bind

/-- The line break before a clause. -/
theorem finds_line (c : Clause) (rest : List Char) :
    Finds space ('\n' :: (c.text.toList ++ rest)) () (c.text.toList ++ rest) := by
  obtain ⟨kind, body⟩ := c
  refine finds_space ?_
  rw [skipSpace_blank (by decide), skipSpace_of_startsToken]
  cases kind <;> simp only [Clause.text, String.toList_append, List.append_assoc] <;>
    exact startsToken_cons (by decide) (by decide) _

/-- The clauses behind the first one. -/
theorem findsMore_clauses {clauses : List Clause} (h : ∀ c ∈ clauses, IsBodyText c.body)
    (rest : List Char) :
    FindsMore clause (clauseLines clauses ++ ';' :: rest) clauses (';' :: rest) := by
  induction clauses with
  | nil => exact .stop ((finds_no_space (by decide) (by decide) rest).misses (misses_clause rest))
  | cons c clauses ih =>
    have hmore := ih fun x hx => h x (List.mem_cons_of_mem _ hx)
    have hclause := finds_clause (h c List.mem_cons_self) (clauseLines clauses ++ ';' :: rest)
    have htext : clauseLines (c :: clauses) ++ ';' :: rest =
        '\n' :: (c.text.toList ++ (clauseLines clauses ++ ';' :: rest)) := by
      simp [clauseLines, clauseLine]
    rw [htext]
    refine .more ((finds_line c _).bind hclause) ?_ hmore
    simp only [List.length_cons, List.length_append]
    omega

/-- Space and the clauses of a policy. -/
theorem finds_clauses {clauses : List Clause} (h : ∀ c ∈ clauses, IsBodyText c.body)
    (rest : List Char) :
    ∃ mid, Finds space (clauseLines clauses ++ ';' :: rest) () mid ∧
      Finds (many clause) mid clauses (';' :: rest) := by
  cases clauses with
  | nil =>
    exact ⟨_, finds_no_space (by decide) (by decide) rest, finds_many_nil (misses_clause rest)⟩
  | cons c clauses =>
    have hmore := findsMore_clauses (fun x hx => h x (List.mem_cons_of_mem _ hx)) rest
    have hfirst := finds_clause (h c List.mem_cons_self) (clauseLines clauses ++ ';' :: rest)
    have htext : clauseLines (c :: clauses) ++ ';' :: rest =
        '\n' :: (c.text.toList ++ (clauseLines clauses ++ ';' :: rest)) := by
      simp [clauseLines, clauseLine]
    rw [htext]
    exact ⟨_, finds_line c _, finds_many_cons hfirst hmore⟩

/-! ## Policies and documents -/

/-- The text of a policy, cut where the readers cut it. -/
theorem toList_policy (p : Policy) (rest : List Char) :
    p.text.toList ++ rest =
      noteLines p.notes ++ (p.effect.keyword.toList ++ '(' :: (p.head.text.toList ++
        ')' :: (clauseLines p.clauses ++ ';' :: rest))) := by
  simp only [Policy.text, String.toList_append, toList_eachBefore, toList_eachAfter,
    List.append_assoc]
  rfl

theorem startsEffect_keyword (e : Effect) (rest : List Char) :
    StartsEffect (e.keyword.toList ++ rest) := by
  cases e
  · exact ⟨'p', _, rfl, by decide, by decide, by decide, by decide⟩
  · exact ⟨'f', _, rfl, by decide, by decide, by decide, by decide⟩

/-- The text of a policy behind its head. -/
def Policy.textAfterHead (p : Policy) (rest : List Char) : List Char :=
  clauseLines p.clauses ++ ';' :: rest

/-- Keys are identifiers, bodies keep together, and in front of this text every
entity is read as it is. -/
structure Policy.IsReadBefore (p : Policy) (rest : List Char) : Prop where
  keys : ∀ a ∈ p.notes, IsIdent a.key
  head : p.head.IsReadBefore (p.textAfterHead rest)
  bodies : ∀ c ∈ p.clauses, IsBodyText c.body

theorem Policy.IsSpelled.isReadBefore {p : Policy} (h : p.IsSpelled) (rest : List Char) :
    p.IsReadBefore rest :=
  ⟨h.keys, Head.isReadBefore h.entities h.actions _, h.bodies⟩

/-- A policy in front of this text. -/
theorem finds_policy {p : Policy} {rest : List Char} (h : p.IsReadBefore rest) :
    Finds policy (p.text.toList ++ rest) p.reread rest := by
  have hstarts := startsEffect_keyword p.effect ('(' :: (p.head.text.toList ++
    ')' :: (clauseLines p.clauses ++ ';' :: rest)))
  obtain ⟨mid, hnotes, hmid⟩ := finds_notes h.keys hstarts
  have hspace : skipSpace mid = p.effect.keyword.toList ++ '(' :: (p.head.text.toList ++
      ')' :: (clauseLines p.clauses ++ ';' :: rest)) := by
    obtain ⟨c, ds, hcons, hspace, hslash, -⟩ := hstarts
    rw [hcons] at hmid ⊢
    exact skipSpace_line hspace hslash hmid
  have hhead : Finds space (p.head.text.toList ++ ')' :: (clauseLines p.clauses ++ ';' :: rest)) ()
      (p.head.text.toList ++ ')' :: (clauseLines p.clauses ++ ';' :: rest)) := by
    have hcons : ∃ ds, p.head.text.toList = 'p' :: ds := by
      cases hprincipal : p.head.principal <;> simp [Head.text, Scope.slotText, hprincipal]
    obtain ⟨ds, hds⟩ := hcons
    rw [hds]
    exact finds_no_space (by decide) (by decide) _
  rw [toList_policy]
  refine finds_rule (hnotes.bind ((finds_space hspace).bind ((finds_effect p.effect _).bind ?_)))
  refine (finds_no_space (by decide) (by decide) _).bind ((finds_mark '(' _).bind ?_)
  refine hhead.bind ((finds_head h.head).bind ?_)
  refine (finds_no_space (by decide) (by decide) _).bind ((finds_mark ')' _).bind ?_)
  obtain ⟨line, hline, hclauses⟩ := finds_clauses h.bodies rest
  refine hline.bind (hclauses.bind ?_)
  refine (finds_no_space (by decide) (by decide) _).bind ((finds_mark ';' rest).bind ?_)
  exact finds_pure _ _

/-- A policy starts a token. -/
theorem startsToken_policy (p : Policy) (rest : List Char) :
    StartsToken (p.text.toList ++ rest) := by
  have hstarts := startsEffect_keyword p.effect ('(' :: (p.head.text.toList ++
    ')' :: (clauseLines p.clauses ++ ';' :: rest)))
  obtain ⟨c, ds, hcons, hspace, hslash, -⟩ := exists_cons_noteLines p.notes hstarts
  rw [toList_policy, hcons]
  exact startsToken_cons hspace hslash ds

theorem misses_policy_nil : Misses policy [] := by
  have hnotes : Finds (many note) [] [] [] := finds_many_nil (misses_rule (misses_symbol rfl).bind)
  have heffect : Misses effect [] := by
    refine misses_rule (misses_orElse ?_ ?_)
    · exact (misses_keyword rfl).bind
    · exact (misses_keyword rfl).bind
  exact misses_rule (hnotes.misses ((finds_space rfl).misses heffect.bind))

/-- The text of a policy behind the first one. -/
def policyBlock (p : Policy) : List Char := '\n' :: '\n' :: p.text.toList

/-- The text of policies behind the first one. -/
def policyBlocks (policies : List Policy) : List Char := policies.flatMap policyBlock

theorem toList_intercalate_policies (p : Policy) (policies : List Policy) :
    ("\n\n".intercalate ((p :: policies).map Policy.text)).toList =
      p.text.toList ++ policyBlocks policies := by
  rw [List.map_cons, toList_intercalate_cons, List.flatMap_map]
  rfl

theorem findsMore_policies {policies : List Policy}
    (h : EachBefore Policy.IsReadBefore policyBlock policies []) :
    FindsMore policy (policyBlocks policies) (policies.map Policy.reread) [] := by
  induction policies with
  | nil => exact .stop ((finds_space rfl).misses misses_policy_nil)
  | cons p policies ih =>
    have hmore := ih h.2
    have hpolicy : Finds policy (p.text.toList ++ (policyBlocks policies ++ [])) p.reread
        (policyBlocks policies ++ []) := finds_policy h.1
    rw [List.append_nil] at hpolicy
    have htext : policyBlocks (p :: policies) =
        '\n' :: '\n' :: (p.text.toList ++ policyBlocks policies) := by
      simp [policyBlocks, policyBlock]
    have hspace : Finds space ('\n' :: '\n' :: (p.text.toList ++ policyBlocks policies)) ()
        (p.text.toList ++ policyBlocks policies) := by
      refine finds_space ?_
      rw [skipSpace_blank (by decide), skipSpace_blank (by decide),
        skipSpace_of_startsToken (startsToken_policy p _)]
    rw [htext]
    refine .more (hspace.bind hpolicy) ?_ hmore
    simp only [List.length_cons, List.length_append]
    omega

/-- The document as it is read back from its text. -/
def Document.reread (d : Document) : Document := ⟨d.policies.map Policy.reread⟩

/-- A document whose entities are read as they are where they stand is read as
itself, up to the values of its annotations. -/
theorem Document.parse_text_of_reads {d : Document}
    (h : EachBefore Policy.IsReadBefore policyBlock d.policies []) :
    Document.parse d.text = .ok d.reread := by
  have hfinish : Finds finish [] () [] := by
    intro offset
    exact ⟨offset, _, rfl⟩
  have hdocument : Finds document d.text.toList d.reread [] := by
    obtain ⟨policies⟩ := d
    have hend : ∀ ps : List Policy,
        Finds (do space; finish; return ⟨ps⟩ : Reader Document) [] ⟨ps⟩ [] :=
      fun ps => (finds_space rfl).bind (hfinish.bind (finds_pure _ []))
    cases policies with
    | nil =>
      have htext : (Document.text ⟨[]⟩).toList = [] := rfl
      rw [htext]
      exact finds_rule ((finds_space rfl).bind ((finds_many_nil misses_policy_nil).bind (hend [])))
    | cons p policies =>
      have hpolicy : Finds policy (p.text.toList ++ (policyBlocks policies ++ [])) p.reread
          (policyBlocks policies ++ []) := finds_policy h.1
      rw [List.append_nil] at hpolicy
      have hmore := findsMore_policies h.2
      have hspace : Finds space (p.text.toList ++ policyBlocks policies) ()
          (p.text.toList ++ policyBlocks policies) :=
        finds_space (skipSpace_of_startsToken (startsToken_policy p _))
      rw [Document.text, toList_intercalate_policies]
      exact finds_rule (hspace.bind ((finds_many_cons hpolicy hmore).bind (hend _)))
  obtain ⟨offset, trials, hread⟩ := hdocument 0
  simp only [Document.parse, hread]

/-- A document of printable policies is read as itself, up to the values of its
annotations. -/
theorem Document.parse_text {d : Document} (h : ∀ p ∈ d.policies, p.IsSpelled) :
    Document.parse d.text = .ok d.reread :=
  d.parse_text_of_reads (eachBefore_of_forall fun p hp _ => (h p hp).isReadBefore _)

/-! ## Values of annotations -/

/-- A value without control characters is read back as it is. -/
theorem rereadValue_eq_self {value : String} (h : ∀ c ∈ value.toList, isControl c = false) :
    rereadValue value = value := by
  rw [rereadValue, stringValue_quote h, String.ofList_toList]

/-- No value of an annotation has a control character. -/
def Document.NotesPlain (d : Document) : Prop :=
  ∀ p ∈ d.policies, ∀ a ∈ p.notes, ∀ v ∈ a.value, ∀ c ∈ v.toList, isControl c = false

theorem Document.reread_eq_self {d : Document} (h : d.NotesPlain) : d.reread = d := by
  have hnotes : ∀ p ∈ d.policies, p.reread = p := by
    intro p hp
    have hvalues : p.notes.map Note.reread = p.notes := by
      refine (List.map_congr_left fun a ha => ?_).trans (List.map_id _)
      obtain ⟨key, value⟩ := a
      cases value with
      | none => rfl
      | some v =>
        show (⟨key, some (rereadValue v)⟩ : Note) = ⟨key, some v⟩
        rw [rereadValue_eq_self (h p hp _ ha v rfl)]
    rw [Policy.reread, hvalues]
  obtain ⟨policies⟩ := d
  rw [Document.reread, (List.map_congr_left hnotes).trans (List.map_id _)]

end PolicyDialects.Cedar
