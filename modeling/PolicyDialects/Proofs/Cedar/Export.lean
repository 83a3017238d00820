import PolicyDialects.Cedar.Mapping
import PolicyDialects.Proofs.Cedar.Bodies
import PolicyDialects.Proofs.Cedar.Reading

/-!
# Exported documents are read back

Subjects, actions, objects and attribute names are written into a document as
they are; ids, descriptions and the strings of conditions are quoted.

* `Policy.Echoes` — what is read back for a policy.

Results:

* `Mapping.parse_documentOf`: where the former are written as entities and
  names, the text of an exported document is read as the document, whatever the
  latter hold, but for the annotations with control characters.
* `documentOf_spliced`: a subject that is not written as an entity can add a
  policy, and an attribute name with braces in it a clause.
-/

namespace PolicyDialects.Cedar

open Text
open PolicyDialects.Filter (Expression)

/-! ## Exported policies -/

/-- The subjects, actions and object of a policy are written as entities, and
the names in its condition keep together. -/
structure Mapping.Fits (m : Mapping) (p : Idql.Policy) : Prop where
  subjects : ∀ s ∈ subjectsOf p, ∀ c ∈ (m.subjectScope s).1, IsEntityText c.entity
  actions : ∀ a ∈ p.actions, IsEntityText (actionEntity a)
  object : ∀ c ∈ m.objectScope p.object, IsEntityText c.entity
  names : ∀ c ∈ p.condition, Yields (NamesFit m.names) (Expression.parse c.rule)

theorem isIdent_of_mem_notesOf {info : Idql.Meta} {a : Note} (h : a ∈ notesOf info) :
    IsIdent a.key := by
  have hid : IsIdent idKey := ⟨'i', ['d'], rfl, by decide, by decide⟩
  have hdescription : IsIdent descriptionKey :=
    ⟨'d', "escription".toList, rfl, by decide, by decide⟩
  rcases List.mem_append.mp h with h | h
  · obtain ⟨id, -, rfl⟩ := Option.map_eq_some_iff.mp (Option.mem_toList.mp h)
    exact hid
  · obtain ⟨text, -, rfl⟩ := Option.map_eq_some_iff.mp (Option.mem_toList.mp h)
    exact hdescription

theorem actionScope_ne_nil (actions : List String) : actionScope actions ≠ some (.in []) := by
  match actions with
  | [] => exact fun h => by cases h
  | [_] => exact fun h => by cases h
  | _ :: _ :: _ => exact fun h => by cases h

theorem entities_actionScope {actions : List String} {s : ActionScope}
    (h : actionScope actions = some s) : s.entities = actions.map actionEntity := by
  match actions with
  | [] => cases h
  | [_] => cases h; rfl
  | _ :: _ :: _ => cases h; rfl

/-- The clauses that a subject needs. -/
theorem isBodyText_of_mem_subjectScope {m : Mapping} {subject : String} {c : Clause}
    (h : c ∈ (m.subjectScope subject).2) : IsBodyText c.body := by
  have hbody : IsBodyText authenticatedBody := ⟨isBodyChars_plain (by decide), by decide⟩
  unfold Mapping.subjectScope at h
  split at h
  · cases h
  · obtain rfl := List.mem_singleton.mp h
    exact hbody
  · cases h
  · cases h

theorem yields_clauseOf {m : Mapping} {c : Idql.Condition}
    (h : Yields (NamesFit m.names) (Expression.parse c.rule)) :
    Yields (fun clause => IsBodyText clause.body) (m.clauseOf c) := by
  have hbody : Yields IsBodyText (Condition.celOfFilter m.names c.rule) :=
    h.bind fun e he => yields_toCel he
  refine hbody.bind fun body hb => ?_
  cases c.action <;> exact .ok hb

/-- The policies of a policy keep together. -/
theorem Mapping.yields_cedarOf {m : Mapping} {p : Idql.Policy} (h : m.Fits p) :
    Yields (fun qs => ∀ q ∈ qs, q.IsSpelled) (m.cedarOf p) := by
  have hcondition : Yields (fun o : Option Clause => ∀ c ∈ o, IsBodyText c.body)
      (p.condition.mapM m.clauseOf) := by
    cases hcondition : p.condition with
    | none => exact .ok fun c hc => by cases hc
    | some condition =>
      refine (yields_clauseOf (h.names condition hcondition)).map fun clause hclause => ?_
      rintro c ⟨⟩
      exact hclause
  refine hcondition.bind fun condition hbody => .ok fun q hq => ?_
  obtain ⟨subject, hsubject, rfl⟩ := List.mem_map.mp hq
  refine ⟨fun a ha => isIdent_of_mem_notesOf ha, fun e he => ?_, actionScope_ne_nil _, ?_⟩
  · simp only [Head.entities, List.mem_append, List.mem_map, List.mem_flatMap,
      Option.mem_toList] at he
    rcases he with (⟨c, hc, rfl⟩ | ⟨s, hs, he⟩) | ⟨c, hc, rfl⟩
    · exact h.subjects subject hsubject c hc
    · rw [entities_actionScope hs] at he
      obtain ⟨a, ha, rfl⟩ := List.mem_map.mp he
      exact h.actions a ha
    · exact h.object c hc
  · intro c hc
    rcases List.mem_append.mp hc with hc | hc
    · exact isBodyText_of_mem_subjectScope hc
    · exact hbody c (Option.mem_toList.mp hc)

/-! ## Exported documents -/

/-- What comes back of an annotation: its key, whether it has a value, and a value
without control characters as it is. -/
structure Note.Echoes (a a' : Note) : Prop where
  key : a'.key = a.key
  isSome : a'.value.isSome = a.value.isSome
  value : ∀ v ∈ a.value, (∀ c ∈ v.toList, isControl c = false) → a'.value = some v

/-- What comes back of a policy: everything, and its annotations one by one. -/
structure Policy.Echoes (p p' : Policy) : Prop where
  notes : List.Forall₂ Note.Echoes p.notes p'.notes
  effect : p'.effect = p.effect
  head : p'.head = p.head
  clauses : p'.clauses = p.clauses

/-- An annotation without control characters in its value comes back as it is. -/
theorem Note.Echoes.eq {a a' : Note} (h : a.Echoes a')
    (hplain : ∀ v ∈ a.value, ∀ c ∈ v.toList, isControl c = false) : a' = a := by
  obtain ⟨key, value⟩ := a
  obtain ⟨key', value'⟩ := a'
  obtain rfl : key' = key := h.key
  have hvalue : value' = value := by
    cases value with
    | none => simpa using h.isSome
    | some v => exact h.value v rfl (hplain v rfl)
  rw [hvalue]

theorem Policy.Echoes.mem_notes {p p' : Policy} (h : p.Echoes p') {a : Note} (ha : a ∈ p.notes)
    (hplain : ∀ v ∈ a.value, ∀ c ∈ v.toList, isControl c = false) : a ∈ p'.notes := by
  obtain ⟨i, hi, rfl⟩ := List.getElem_of_mem ha
  have hi' : i < p'.notes.length := h.notes.length_eq ▸ hi
  have hecho : (p.notes[i]).Echoes (p'.notes[i]) := h.notes.get hi hi'
  rw [← hecho.eq hplain]
  exact List.getElem_mem hi'

theorem Note.echoes_reread (a : Note) : a.Echoes a.reread := by
  refine ⟨rfl, Option.isSome_map, ?_⟩
  intro v hv hplain
  rw [Note.reread, Option.mem_def.mp hv, Option.map_some, rereadValue_eq_self hplain]

theorem Policy.echoes_reread (p : Policy) : p.Echoes p.reread :=
  ⟨List.forall₂_map_right_iff.mpr (List.forall₂_same.mpr fun a _ => a.echoes_reread),
    rfl, rfl, rfl⟩

theorem Document.echoes_reread (d : Document) :
    List.Forall₂ Policy.Echoes d.policies d.reread.policies :=
  List.forall₂_map_right_iff.mpr (List.forall₂_same.mpr fun p _ => p.echoes_reread)

/-- The policies of a document keep together. -/
theorem Mapping.yields_documentOf {m : Mapping} {policies : List Idql.Policy}
    (h : ∀ p ∈ policies, m.Fits p) :
    Yields (fun d => ∀ q ∈ d.policies, q.IsSpelled) (m.documentOf policies) := by
  have hmapped : Yields (fun qss : List (List Policy) => ∀ qs ∈ qss, ∀ q ∈ qs, q.IsSpelled)
      (policies.mapM m.cedarOf) := by
    induction policies with
    | nil => exact .ok (by simp)
    | cons p policies ih =>
      have hfirst := m.yields_cedarOf (h p List.mem_cons_self)
      have hrest := ih fun q hq => h q (List.mem_cons_of_mem _ hq)
      rw [List.mapM_cons]
      refine hfirst.bind fun qs hqs => hrest.bind fun qss hqss => .ok ?_
      exact List.forall_mem_cons.mpr ⟨hqs, hqss⟩
  refine hmapped.bind fun qss hqss => .ok fun q hq => ?_
  obtain ⟨qs, hqs, hq⟩ := List.mem_flatten.mp hq
  exact hqss qs hqs q hq

/-- Where subjects, actions and objects are written as entities and the names in
conditions keep together, an exported document is read back with its policies,
their heads and clauses and the keys of their annotations, and nothing else. So
is the value of every annotation that has no control character in it. -/
theorem Mapping.parse_documentOf {m : Mapping} {policies : List Idql.Policy} {d : Document}
    (h : m.documentOf policies = .ok d) (hfits : ∀ p ∈ policies, m.Fits p) :
    ∃ d', Document.parse d.text = .ok d' ∧
      List.Forall₂ Policy.Echoes d.policies d'.policies ∧ (d.NotesPlain → d' = d) :=
  ⟨d.reread, Document.parse_text (m.yields_documentOf hfits d h), d.echoes_reread,
    Document.reread_eq_self⟩

/-- A policy whose quoted texts hold marks of the grammar. -/
def marked (description : Option String) : Idql.Policy where
  info := { policyId := some "1\"); permit(", description }
  subjects := ["User::\"); permit(\"", "any"]
  actions := ["read"]
  object := "Document::\"doc1\""
  condition := some ⟨"name eq \"\x7d; permit(\"", .deny⟩

/-- The annotation that keeps the id of the policy. -/
def markedId : Note := ⟨"id", some "1\"); permit("⟩

/-- The exported document of the policy. -/
def markedDocument (description : Option String) : Document where
  policies :=
    let policy (principal : Option Scope) : Policy :=
      { notes := markedId :: (description.map fun text => ⟨"description", some text⟩).toList,
        effect := .permit,
        head := { principal,
                  action := some (.eq "Action::\"read\""),
                  resource := some ⟨.eq, "Document::\"doc1\""⟩ },
        clauses := [⟨.unless, "name == \"\x7d; permit(\""⟩] }
    [policy (some ⟨.eq, "User::\"); permit(\""⟩), policy none]

theorem fits_marked (description : Option String) : Mapping.Fits {} (marked description) := by
  have hrule : Expression.parse "name eq \"\x7d; permit(\"" =
      .ok (.compare (.with "name" .eq (.string "\x7d; permit("))) := by decide +kernel
  have hreference : ∀ type ∈ ["User", "Action", "Document"], ∀ id,
      IsEntityText (type ++ "::" ++ quote id) := by
    intro type htype id
    refine isEntityText_reference ?_ id
    revert type
    decide
  have hsubject : ∀ s ∈ ["User::\"); permit(\"", "any"], ∀ c ∈ (Mapping.subjectScope {} s).1,
      c.entity = "User" ++ "::" ++ quote "); permit(" := by decide
  have hobject : ∀ c ∈ Mapping.objectScope {} "Document::\"doc1\"",
      c.entity = "Document" ++ "::" ++ quote "doc1" := by decide
  have hname : IsNameText "name" :=
    (isSolid_plain (by decide) (by decide)).toIsNameText
  refine ⟨fun s hs c hc => ?_, fun a ha => ?_, fun c hc => ?_, ?_⟩
  · rw [hsubject s hs c hc]
    exact hreference "User" (by decide) _
  · obtain rfl := List.mem_singleton.mp ha
    exact hreference "Action" (by decide) "read"
  · rw [hobject c hc]
    exact hreference "Document" (by decide) _
  · rintro c ⟨⟩ e he
    rw [hrule] at he
    cases he
    rintro path ⟨⟩
    exact hname

/-- The document is read back. With a tab in the description, the id still is. -/
theorem parse_documentOf_marked :
    (Mapping.documentOf {} [marked none] = .ok (markedDocument none) ∧
        Document.parse (markedDocument none).text = .ok (markedDocument none)) ∧
      Mapping.documentOf {} [marked (some "a\tb")] = .ok (markedDocument (some "a\tb")) ∧
        ∃ p q, Document.parse (markedDocument (some "a\tb")).text = .ok ⟨[p, q]⟩ ∧
          markedId ∈ p.notes ∧ markedId ∈ q.notes := by
  have hplain : Mapping.documentOf {} [marked none] = .ok (markedDocument none) := by
    decide +kernel
  have htab : Mapping.documentOf {} [marked (some "a\tb")] =
      .ok (markedDocument (some "a\tb")) := by decide +kernel
  obtain ⟨d, hread, -, heq⟩ := Mapping.parse_documentOf hplain
    (List.forall_mem_singleton.mpr (fits_marked none))
  rw [heq (by unfold Document.NotesPlain; decide)] at hread
  obtain ⟨⟨policies⟩, htabRead, hechoes, -⟩ := Mapping.parse_documentOf htab
    (List.forall_mem_singleton.mpr (fits_marked _))
  obtain ⟨p, rest, hp, hrest, rfl⟩ := List.forall₂_cons_left_iff.mp hechoes
  obtain ⟨q, _, hq, hnil, rfl⟩ := List.forall₂_cons_left_iff.mp hrest
  obtain rfl := List.forall₂_nil_left_iff.mp hnil
  have hid : ∀ v ∈ markedId.value, ∀ c ∈ v.toList, isControl c = false := by decide
  exact ⟨⟨hplain, hread⟩, htab, p, q, htabRead, hp.mem_notes List.mem_cons_self hid,
    hq.mem_notes List.mem_cons_self hid⟩

/-- A policy whose only subject goes on with the rest of a head and the start of
another policy. -/
def spliced : Idql.Policy where
  subjects := ["x, action, resource);\n\npermit(principal"]

/-- The exported document of the policy. -/
def splicedDocument : Document where
  policies :=
    [{ effect := .permit,
       head := { principal := some ⟨.eq, "x, action, resource);\n\npermit(principal"⟩ } }]

/-- A policy for one principal and a policy for everyone. -/
def twoPolicies : Document where
  policies :=
    [{ effect := .permit, head := { principal := some ⟨.eq, "x"⟩ } },
     { effect := .permit, head := {} }]

/-- A policy whose rule names an attribute with the end of a clause and the start
of another one in it. -/
def splitting : Idql.Policy where
  condition := some ⟨"a\x7dwhen\x7bb pr", .allow⟩

/-- The exported document of the policy. -/
def splittingDocument : Document where
  policies :=
    [{ effect := .permit, head := {}, clauses := [⟨.when, "has(a\x7dwhen\x7bb)"⟩] }]

/-- A policy with two clauses. -/
def twoClauses : Document where
  policies :=
    [{ effect := .permit, head := {}, clauses := [⟨.when, "has(a"⟩, ⟨.when, "b)"⟩] }]

/-- A subject that is not written as an entity can add a policy: the document
of one policy is read back as two. And an attribute name that does not keep
together can add a clause. -/
theorem documentOf_spliced :
    (Mapping.documentOf {} [spliced] = .ok splicedDocument ∧
        Document.parse splicedDocument.text = .ok twoPolicies ∧ twoPolicies ≠ splicedDocument) ∧
      Mapping.documentOf {} [splitting] = .ok splittingDocument ∧
        Document.parse splittingDocument.text = .ok twoClauses ∧
        twoClauses ≠ splittingDocument := by
  have hentity : IsEntityText "x" :=
    ⟨by decide, isEntityChars_plain (by decide), fun rest h => by cases h⟩
  have hspelled : ∀ q ∈ twoPolicies.policies, q.IsSpelled := by
    refine List.forall_mem_cons.mpr ⟨?_, List.forall_mem_singleton.mpr ?_⟩
    · exact ⟨List.forall_mem_nil _, List.forall_mem_singleton.mpr hentity, by decide,
        List.forall_mem_nil _⟩
    · exact ⟨List.forall_mem_nil _, List.forall_mem_nil _, by decide, List.forall_mem_nil _⟩
  have htext : splicedDocument.text = twoPolicies.text := by decide
  have hread := Document.parse_text hspelled
  rw [← htext] at hread
  have hsplitting : Mapping.documentOf {} [splitting] = .ok splittingDocument := by decide +kernel
  have hclauses : Document.parse splittingDocument.text = .ok twoClauses := by decide +kernel
  exact ⟨⟨by decide, hread, by decide⟩, hsplitting, hclauses, by decide⟩

end PolicyDialects.Cedar
