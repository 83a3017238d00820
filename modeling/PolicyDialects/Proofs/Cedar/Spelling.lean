import PolicyDialects.Proofs.Cedar.Layout

/-!
# The tokens that spell a document

Which tokens a document is read from: keywords may be in any case, and literals
may have escapes that they do not need. Each reader of the grammar reads the
tokens of its part.

Results:

* `SpellsPolicy`: the tokens of a policy.
* `reads_note`, `reads_head`, `reads_clause`, `reads_policy`: the parts of the
  grammar.
* `Document.parse_iff_laidOut`: a text is read as a document exactly if it is laid
  out as tokens that spell the document.
-/

namespace PolicyDialects.Cedar

open Text
open Reader

/-! ## Spellings -/

/-- The tokens of an annotation. -/
inductive SpellsNote : Note → List Token → Prop where
  | bare (key : String) : SpellsNote ⟨key, none⟩ [.mark "@", .ident key]
  | valued (key literal : String) :
      SpellsNote ⟨key, some (String.ofList (stringValue literal.toList))⟩
        [.mark "@", .ident key, .mark "(", .string literal, .mark ")"]

/-- The token of an operator of a slot. -/
inductive SpellsScopeOp : ScopeOperator → Token → Prop where
  | eq : SpellsScopeOp .eq (.mark "==")
  | in (s : String) : SpellsScopeOp .in (.keyword "in" s)

/-- The tokens of the principal or resource slot. -/
inductive SpellsSlot (word : String) : Option Scope → List Token → Prop where
  | free (s : String) : SpellsSlot word none [.keyword word s]
  | scope (s e : String) {op : ScopeOperator} {t : Token} (hop : SpellsScopeOp op t) :
      SpellsSlot word (some ⟨op, e⟩) [.keyword word s, t, .entity e]

/-- The tokens of an entity behind the first one of a list. -/
def itemTokens (e : String) : List Token := [.mark ",", .entity e]

/-- The tokens of the action slot. -/
inductive SpellsAction : Option ActionScope → List Token → Prop where
  | free (s : String) : SpellsAction none [.keyword "action" s]
  | eq (s e : String) : SpellsAction (some (.eq e)) [.keyword "action" s, .mark "==", .entity e]
  | in (s s' e : String) (es : List String) :
      SpellsAction (some (.in (e :: es)))
        (.keyword "action" s :: .keyword "in" s' :: .mark "[" :: .entity e ::
          (es.flatMap itemTokens ++ [.mark "]"]))

/-- The tokens of the slots of a policy. -/
inductive SpellsHead : Head → List Token → Prop where
  | mk {principal resource : Option Scope} {action : Option ActionScope} {ts us vs : List Token}
      (hprincipal : SpellsSlot "principal" principal ts) (haction : SpellsAction action us)
      (hresource : SpellsSlot "resource" resource vs) :
      SpellsHead ⟨principal, action, resource⟩ (ts ++ .mark "," :: (us ++ .mark "," :: vs))

/-- The tokens of a clause. -/
inductive SpellsClause : Clause → List Token → Prop where
  | mk (kind : ClauseKind) (s text : String) :
      SpellsClause ⟨kind, trimmed text⟩ [.keyword kind.keyword s, .body text]

/-- The tokens of a policy. -/
inductive SpellsPolicy : Policy → List Token → Prop where
  | mk {notes : List Note} {effect : Effect} {head : Head} {clauses : List Clause}
      {ts us vs : List Token} (s : String) (hnotes : SpellsAll SpellsNote notes ts)
      (hhead : SpellsHead head us) (hclauses : SpellsAll SpellsClause clauses vs) :
      SpellsPolicy ⟨notes, effect, head, clauses⟩
        (ts ++ .keyword effect.keyword s :: .mark "(" ::
          (us ++ .mark ")" :: (vs ++ [.mark ";"])))

/-- The tokens of a document. -/
abbrev SpellsDocument (d : Document) (ts : List Token) : Prop :=
  SpellsAll SpellsPolicy d.policies ts

/-! ## Parts of a policy -/

theorem reads_noteValue :
    Reads (do symbol ['(']; space; let value ← string; space; symbol [')']; return value) []
      fun value ts => ∃ literal : String, value = String.ofList (stringValue literal.toList) ∧
        ts = [.mark "(", .string literal, .mark ")"] := by
  have hclose := fun value : String =>
    (reads_mark (s := ")") (by decide) rfl).map fun _ => value
  have hvalue := reads_string.seq hclose fun _ _ _ => avoids_nil _
  have hopen := (reads_mark (s := "(") (by decide) rfl).seq (fun _ => hvalue)
    fun _ _ _ => avoids_nil _
  refine hopen.congr fun value ts => ?_
  constructor
  · rintro ⟨_, _, _, rfl, rfl, _, _, _, rfl, ⟨literal, rfl, rfl⟩, _, rfl, rfl⟩
    exact ⟨literal, rfl, rfl⟩
  · rintro ⟨literal, rfl, rfl⟩
    exact ⟨(), _, _, rfl, rfl, _, _, _, rfl, ⟨literal, rfl, rfl⟩, (), rfl, rfl⟩

theorem missesUnless_note : MissesUnless note ['@'] :=
  ((missesUnless_symbol rfl _).bind _).rule _

theorem reads_note : Reads note ['('] SpellsNote := by
  have hvalue := fun key : String =>
    ((reads_noteValue.optional ((missesUnless_symbol rfl _).bind _)).map
      fun value => (⟨key, value⟩ : Note))
  have hkey := reads_ident.seq hvalue fun _ _ _ => avoids_nil _
  have hat := (reads_mark (s := "@") (by decide) rfl).seq (fun _ => hkey) fun _ _ _ => avoids_nil _
  refine (hat.rule .note).congr fun a ts => ?_
  constructor
  · rintro ⟨_, _, _, rfl, rfl, key, _, _, rfl, rfl, _ | _, rfl, hvalue⟩
    · obtain rfl := hvalue
      exact .bare key
    · obtain ⟨literal, rfl, rfl⟩ := hvalue
      exact .valued key literal
  · rintro (⟨key⟩ | ⟨key, literal⟩)
    · exact ⟨(), _, _, rfl, rfl, key, _, [], rfl, rfl, none, rfl, rfl⟩
    · exact ⟨(), _, _, rfl, rfl, key, _, _, rfl, rfl, some _, rfl, literal, rfl, rfl⟩

/-- One of two tokens that stand for two values. -/
theorem reads_choice {α : Type} {a b : α} {r s : Reader Unit} {heads : List Char}
    {spells spells' : Unit → List Token → Prop} (h : Reads r [] spells) (hs : Reads s [] spells')
    (hmiss : MissesUnless r heads)
    (hstarts : ∀ {ts cs mid}, spells' () ts → Run ts cs mid → Avoids heads (skipSpace cs)) :
    Reads (Reader.orElse (do r; return a) (do s; return b)) []
      fun x ts => x = a ∧ spells () ts ∨ x = b ∧ spells' () ts := by
  have hor := (h.map fun _ => a).orElse (hs.map fun _ => b) (by
    rintro cs _ ts mid ⟨_, rfl, hspells⟩ hrun
    exact (hmiss cs (hstarts hspells hrun)).bind)
  refine hor.congr fun x ts => ?_
  constructor
  · rintro (⟨_, rfl, hspells⟩ | ⟨_, rfl, hspells⟩)
    · exact .inl ⟨rfl, hspells⟩
    · exact .inr ⟨rfl, hspells⟩
  · rintro (⟨rfl, hspells⟩ | ⟨rfl, hspells⟩)
    · exact .inl ⟨(), rfl, hspells⟩
    · exact .inr ⟨(), rfl, hspells⟩

theorem reads_scopeOp : Reads scopeOp [] fun op ts => ∃ t, SpellsScopeOp op t ∧ ts = [t] := by
  have hchoice := reads_choice (a := ScopeOperator.eq) (b := ScopeOperator.in)
    (reads_mark (s := "==") (by decide) rfl) (reads_keyword (w := "in") (by decide))
    (missesUnless_symbol (c := '=') rfl ['=']) (by
      rintro _ cs mid ⟨s, rfl⟩ hrun
      exact hrun.avoids rfl (by decide))
  refine (hchoice.rule .scopeOp).congr fun op ts => ?_
  constructor
  · rintro (⟨rfl, rfl⟩ | ⟨rfl, s, rfl⟩)
    · exact ⟨_, .eq, rfl⟩
    · exact ⟨_, .in s, rfl⟩
  · rintro ⟨_, ⟨⟩ | ⟨s⟩, rfl⟩
    · exact .inl ⟨rfl, rfl⟩
    · exact .inr ⟨rfl, s, rfl⟩

theorem missesUnless_scopeOp : MissesUnless scopeOp ['=', 'i'] :=
  (((missesUnless_symbol rfl _).bind _).orElse ((missesUnless_keyword rfl).bind _)).rule _

theorem reads_scope :
    Reads
      (do let operator ← scopeOp; space; let entity ← entity; return (⟨operator, entity⟩ : Scope))
      [] fun c ts => ∃ t, SpellsScopeOp c.operator t ∧ ts = [t, .entity c.entity] := by
  have hentity := fun op : ScopeOperator => reads_entity.map fun e => (⟨op, e⟩ : Scope)
  refine (reads_scopeOp.seq hentity fun _ _ _ => avoids_nil _).congr fun c ts => ?_
  constructor
  · rintro ⟨op, _, _, rfl, ⟨t, hop, rfl⟩, e, rfl, rfl⟩
    exact ⟨t, hop, rfl⟩
  · rintro ⟨t, hop, rfl⟩
    exact ⟨c.operator, [t], _, rfl, ⟨t, hop, rfl⟩, c.entity, rfl, rfl⟩

theorem reads_slot (name : Rule) {w : String} (hword : w ∈ Token.keywords) :
    Reads (slot name w) ['=', 'i'] (SpellsSlot w) := by
  have hscope := reads_scope.optional (missesUnless_scopeOp.bind _)
  have hslot := (reads_keyword hword).seq (fun _ => hscope) fun _ _ _ => avoids_nil _
  refine (hslot.rule name).congr fun c ts => ?_
  constructor
  · rintro ⟨_, _, _, rfl, ⟨s, rfl⟩, hscope⟩
    cases c with
    | none =>
      obtain rfl := hscope
      exact .free s
    | some c =>
      obtain ⟨t, hop, rfl⟩ := hscope
      exact .scope s _ hop
  · rintro (⟨s⟩ | ⟨s, e, hop⟩)
    · exact ⟨(), [_], [], rfl, ⟨s, rfl⟩, rfl⟩
    · exact ⟨(), [_], _, rfl, ⟨s, rfl⟩, _, hop, rfl⟩

theorem reads_actionEq :
    Reads actionEq [] fun a ts => ∃ e, a = .eq e ∧ ts = [.mark "==", .entity e] := by
  have hentity := reads_entity.map ActionScope.eq
  have heq := (reads_mark (s := "==") (by decide) rfl).seq (fun _ => hentity)
    fun _ _ _ => avoids_nil _
  refine (heq.rule .actionEq).congr fun a ts => ?_
  constructor
  · rintro ⟨_, _, _, rfl, rfl, e, rfl, rfl⟩
    exact ⟨e, rfl, rfl⟩
  · rintro ⟨e, rfl, rfl⟩
    exact ⟨(), _, _, rfl, rfl, e, rfl, rfl⟩

theorem spellsAll_items {es : List String} {ts : List Token} :
    SpellsAll (fun e ts => ts = itemTokens e) es ts ↔ ts = es.flatMap itemTokens := by
  constructor
  · intro h
    induction h with
    | nil => rfl
    | cons hts _ ih => rw [hts, ih, List.flatMap_cons]
  · rintro rfl
    induction es with
    | nil => exact .nil
    | cons e es ih => exact .cons rfl ih

theorem reads_moreEntities :
    Reads (many nextEntity) [','] fun es ts => ts = es.flatMap itemTokens := by
  have hnext : Reads nextEntity [] fun e ts => ts = itemTokens e := by
    have hcomma := (reads_mark (s := ",") (by decide) rfl).seq (fun _ => reads_entity)
      fun _ _ _ => avoids_nil _
    refine hcomma.congr fun e ts => ?_
    constructor
    · rintro ⟨_, _, _, rfl, rfl, rfl⟩
      rfl
    · rintro rfl
      exact ⟨(), _, _, rfl, rfl, rfl⟩
  have hmany := hnext.many ((missesUnless_symbol (c := ',') rfl []).bind _)
    (by rintro e _ rfl; exact List.cons_ne_nil _ _) fun _ _ => avoids_nil _
  exact hmany.congr fun es ts => spellsAll_items

theorem reads_actionIn :
    Reads actionIn [] fun a ts => ∃ s e es, a = .in (e :: es) ∧
      ts = .keyword "in" s :: .mark "[" :: .entity e :: (es.flatMap itemTokens ++ [.mark "]"]) := by
  have hclose := fun (e : String) (es : List String) =>
    (reads_mark (s := "]") (by decide) rfl).map fun _ => ActionScope.in (e :: es)
  have hmore := fun e : String => reads_moreEntities.seq (hclose e) (by
    rintro es _ _ cs mid ⟨_, rfl, rfl⟩ hrun -
    exact hrun.avoids rfl (by decide))
  have hfirst := reads_entity.seq hmore fun _ _ _ => avoids_nil _
  have hopen := (reads_mark (s := "[") (by decide) rfl).seq (fun _ => hfirst)
    fun _ _ _ => avoids_nil _
  have hin := (reads_keyword (w := "in") (by decide)).seq (fun _ => hopen)
    fun _ _ _ => avoids_nil _
  refine (hin.rule .actionIn).congr fun a ts => ?_
  constructor
  · rintro ⟨_, _, _, rfl, ⟨s, rfl⟩, _, _, _, rfl, rfl, e, _, _, rfl, rfl, es, _, _, rfl, rfl, _,
      rfl, rfl⟩
    exact ⟨s, e, es, rfl, rfl⟩
  · rintro ⟨s, e, es, rfl, rfl⟩
    exact ⟨(), [_], _, rfl, ⟨s, rfl⟩, (), [_], _, rfl, rfl, e, [_], _, rfl, rfl, es, _, _, rfl, rfl,
      (), rfl, rfl⟩

theorem reads_action : Reads action ['=', 'i'] SpellsAction := by
  have hmissEq : MissesUnless actionEq ['='] := ((missesUnless_symbol rfl _).bind _).rule _
  have hmissIn : MissesUnless actionIn ['i'] := ((missesUnless_keyword rfl).bind _).rule _
  have hchoice := reads_actionEq.orElse reads_actionIn (by
    rintro cs a _ mid ⟨s, e, es, rfl, rfl⟩ hrun
    exact hmissEq cs (hrun.avoids rfl (by decide)))
  have haction := (reads_keyword (w := "action") (by decide)).seq
    (fun _ => hchoice.optional (hmissEq.orElse hmissIn)) fun _ _ _ => avoids_nil _
  refine (haction.rule .action).congr fun a ts => ?_
  constructor
  · rintro ⟨_, _, _, rfl, ⟨s, rfl⟩, hscope⟩
    cases a with
    | none =>
      obtain rfl := hscope
      exact .free s
    | some a =>
      obtain ⟨e, rfl, rfl⟩ | ⟨s', e, es, rfl, rfl⟩ := hscope
      · exact .eq s e
      · exact .in s s' e es
  · rintro (⟨s⟩ | ⟨s, e⟩ | ⟨s, s', e, es⟩)
    · exact ⟨(), [_], [], rfl, ⟨s, rfl⟩, rfl⟩
    · exact ⟨(), [_], _, rfl, ⟨s, rfl⟩, .inl ⟨e, rfl, rfl⟩⟩
    · exact ⟨(), [_], _, rfl, ⟨s, rfl⟩, .inr ⟨s', e, es, rfl, rfl⟩⟩

theorem reads_head : Reads head ['=', 'i'] SpellsHead := by
  have hresource := fun (p : Option Scope) (a : Option ActionScope) =>
    (reads_slot .resource (w := "resource") (by decide)).map fun r => (⟨p, a, r⟩ : Head)
  have hcomma₂ := fun (p : Option Scope) (a : Option ActionScope) =>
    (reads_mark (s := ",") (by decide) rfl).seq (fun _ => hresource p a) fun _ _ _ => avoids_nil _
  have haction := fun p : Option Scope => reads_action.seq (hcomma₂ p) (by
    rintro a _ _ cs mid ⟨_, _, _, rfl, rfl, -⟩ hrun -
    exact hrun.avoids rfl (by decide))
  have hcomma₁ := fun p : Option Scope =>
    (reads_mark (s := ",") (by decide) rfl).seq (fun _ => haction p) fun _ _ _ => avoids_nil _
  have hprincipal := (reads_slot .principal (w := "principal") (by decide)).seq hcomma₁ (by
    rintro p _ _ cs mid ⟨_, _, _, rfl, rfl, -⟩ hrun -
    exact hrun.avoids rfl (by decide))
  refine (hprincipal.rule .head).congr fun h ts => ?_
  constructor
  · rintro ⟨p, _, _, rfl, hp, _, _, _, rfl, rfl, a, _, _, rfl, ha, _, _, _, rfl, rfl, r, rfl, hr⟩
    exact .mk hp ha hr
  · rintro ⟨hp, ha, hr⟩
    exact ⟨_, _, _, rfl, hp, (), [_], _, rfl, rfl, _, _, _, rfl, ha, (), [_], _, rfl, rfl, _, rfl,
      hr⟩

theorem reads_clauseKind : Reads clauseKind [] fun k ts => ∃ s, ts = [.keyword k.keyword s] := by
  have hchoice := reads_choice (a := ClauseKind.when) (b := ClauseKind.unless)
    (reads_keyword (w := "when") (by decide)) (reads_keyword (w := "unless") (by decide))
    (missesUnless_keyword (w := 'w') rfl) (by
      rintro _ cs mid ⟨s, rfl⟩ hrun
      exact hrun.avoids rfl (by decide))
  refine (hchoice.rule .clauseKind).congr fun k ts => ?_
  constructor
  · rintro (⟨rfl, s, rfl⟩ | ⟨rfl, s, rfl⟩) <;> exact ⟨s, rfl⟩
  · rintro ⟨s, rfl⟩
    cases k with
    | «when» => exact .inl ⟨rfl, s, rfl⟩
    | «unless» => exact .inr ⟨rfl, s, rfl⟩

theorem reads_effect : Reads effect [] fun e ts => ∃ s, ts = [.keyword e.keyword s] := by
  have hchoice := reads_choice (a := Effect.permit) (b := Effect.forbid)
    (reads_keyword (w := "permit") (by decide)) (reads_keyword (w := "forbid") (by decide))
    (missesUnless_keyword (w := 'p') rfl) (by
      rintro _ cs mid ⟨s, rfl⟩ hrun
      exact hrun.avoids rfl (by decide))
  refine (hchoice.rule .effect).congr fun e ts => ?_
  constructor
  · rintro (⟨rfl, s, rfl⟩ | ⟨rfl, s, rfl⟩) <;> exact ⟨s, rfl⟩
  · rintro ⟨s, rfl⟩
    cases e with
    | permit => exact .inl ⟨rfl, s, rfl⟩
    | forbid => exact .inr ⟨rfl, s, rfl⟩

theorem missesUnless_clause : MissesUnless clause ['w', 'u'] :=
  (((((missesUnless_keyword rfl).bind _).orElse ((missesUnless_keyword rfl).bind _)).rule _).bind
    _).rule _

theorem reads_clause : Reads clause [] SpellsClause := by
  have hbody := fun kind : ClauseKind => reads_body.map fun b => (⟨kind, b⟩ : Clause)
  refine ((reads_clauseKind.seq hbody fun _ _ _ => avoids_nil _).rule .clause).congr fun c ts => ?_
  constructor
  · rintro ⟨kind, _, _, rfl, ⟨s, rfl⟩, _, rfl, text, rfl, rfl⟩
    exact .mk kind s text
  · rintro ⟨kind, s, text⟩
    exact ⟨kind, [_], _, rfl, ⟨s, rfl⟩, _, rfl, text, rfl, rfl⟩

/-! ## Policies and documents -/

theorem reads_notes : Reads (many note) ['(', '@'] (SpellsAll SpellsNote) := by
  refine reads_note.many missesUnless_note ?_ ?_
  · rintro a ts (⟨key⟩ | ⟨key, literal⟩) <;> exact List.cons_ne_nil _ _
  · rintro a ts cs mid (⟨key⟩ | ⟨key, literal⟩) hrun <;> exact hrun.avoids rfl (by decide)

theorem reads_clauses : Reads (many clause) ['w', 'u'] (SpellsAll SpellsClause) :=
  reads_clause.many missesUnless_clause (by rintro c ts ⟨⟩; exact List.cons_ne_nil _ _)
    fun _ _ => avoids_nil _

theorem reads_policy : Reads policy [] SpellsPolicy := by
  have hend := fun (notes : List Note) (effect : Effect) (head : Head) (clauses : List Clause) =>
    (reads_mark (s := ";") (by decide) rfl).map fun _ => (⟨notes, effect, head, clauses⟩ : Policy)
  have hclauses := fun (notes : List Note) (effect : Effect) (head : Head) =>
    reads_clauses.seq (hend notes effect head) (by
      rintro _ _ _ cs mid ⟨_, rfl, rfl⟩ hrun -
      exact hrun.avoids rfl (by decide))
  have hclose := fun (notes : List Note) (effect : Effect) (head : Head) =>
    (reads_mark (s := ")") (by decide) rfl).seq (fun _ => hclauses notes effect head)
      fun _ _ _ => avoids_nil _
  have hhead := fun (notes : List Note) (effect : Effect) =>
    reads_head.seq (hclose notes effect) (by
      rintro _ _ _ cs mid ⟨_, _, _, rfl, rfl, -⟩ hrun -
      exact hrun.avoids rfl (by decide))
  have hopen := fun (notes : List Note) (effect : Effect) =>
    (reads_mark (s := "(") (by decide) rfl).seq (fun _ => hhead notes effect)
      fun _ _ _ => avoids_nil _
  have heffect := fun notes : List Note =>
    reads_effect.seq (hopen notes) fun _ _ _ => avoids_nil _
  have hnotes := reads_notes.seq heffect (by
    rintro _ _ _ cs mid ⟨e, _, _, rfl, ⟨s, rfl⟩, -⟩ hrun -
    cases e <;> exact hrun.avoids rfl (by decide))
  refine (hnotes.rule .policy).congr fun p ts => ?_
  constructor
  · rintro ⟨notes, _, _, rfl, hns, effect, _, _, rfl, ⟨s, rfl⟩, _, _, _, rfl, rfl, head, _, _, rfl,
      hh, _, _, _, rfl, rfl, clauses, _, _, rfl, hcs, _, rfl, rfl⟩
    exact .mk s hns hh hcs
  · rintro ⟨s, hns, hh, hcs⟩
    exact ⟨_, _, _, rfl, hns, _, [_], _, rfl, ⟨s, rfl⟩, (), [_], _, rfl, rfl, _, _, _, rfl, hh, (),
      [_], _, rfl, rfl, _, _, _, rfl, hcs, (), rfl, rfl⟩

theorem missesUnless_policy : MissesUnless policy ['@', 'p', 'f'] := by
  intro cs hcs
  have hnotes := finds_many_nil (missesUnless_note cs hcs.left)
  have heffect : MissesUnless effect ['p', 'f'] :=
    (((missesUnless_keyword rfl).bind _).orElse ((missesUnless_keyword rfl).bind _)).rule _
  exact misses_rule (hnotes.misses ((finds_space (skipSpace_skipSpace cs)).misses
    (heffect cs (Avoids.right (show Avoids (['@'] ++ ['p', 'f']) _ from hcs))).bind))

theorem reads_policies : Reads (many policy) ['@', 'p', 'f'] (SpellsAll SpellsPolicy) := by
  refine reads_policy.many missesUnless_policy ?_ fun _ _ => avoids_nil _
  rintro p ts ⟨s, -, -, -⟩ hnil
  exact List.cons_ne_nil _ _ (List.append_eq_nil_iff.mp hnil).2

/-- The text is the tokens, with space and comments between them and at its
ends. -/
def LaidOut (ts : List Token) (cs : List Char) : Prop :=
  ∃ rest, Run ts cs rest ∧ skipSpace rest = []

/-- A text is read as a document exactly if it is laid out as tokens that spell
the document. -/
theorem Document.parse_iff_laidOut {text : String} {d : Document} :
    Document.parse text = .ok d ↔ ∃ ts, SpellsDocument d ts ∧ LaidOut ts text.toList := by
  constructor
  · intro h
    unfold Document.parse at h
    dsimp only at h
    split at h
    · rename_i d' place trials hread
      obtain rfl := Except.ok.inj h
      have hfound : Found document text.toList d' place.text := ⟨_, _, _, hread⟩
      obtain ⟨policies, _, hpolicies, hfound⟩ := hfound.of_rule.behind_space.of_bind
      obtain ⟨_, _, hspace, hfound⟩ := hfound.of_bind
      obtain ⟨_, _, hfinish, hfound⟩ := hfound.of_bind
      obtain ⟨rfl, -⟩ := hfound.of_pure
      obtain ⟨ts, mid, hspells, hrun, hbehind⟩ := reads_policies.found hpolicies
      have hrest := hspace.of_space
      rw [hbehind.skipSpace] at hrest
      exact ⟨ts, hspells, mid, hrun, hrest ▸ hfinish.of_finish.1⟩
    · cases h
  · rintro ⟨ts, hspells, mid, hrun, hend⟩
    obtain ⟨rest, hfinds, hbehind⟩ :=
      reads_policies.finds hspells hrun (by rw [hend]; exact avoids_empty _)
    have hspace : Finds space rest () [] := finds_space (hbehind.skipSpace.trans hend)
    have hfinish : Finds finish [] () [] := fun offset => ⟨offset, _, rfl⟩
    have hdocument : Finds document text.toList d [] :=
      finds_rule ((finds_space rfl).bind
        (hfinds.bind (hspace.bind (hfinish.bind (finds_pure _ _)))))
    obtain ⟨offset, trials, hread⟩ := hdocument 0
    simp only [Document.parse, hread]

end PolicyDialects.Cedar
