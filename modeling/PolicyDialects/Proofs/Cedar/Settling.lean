import PolicyDialects.Proofs.Cedar.Recovery

/-!
# Documents that settle

A document that export has written comes back from IDQL with the bodies of its
clauses sent through filters, and with nothing else changed. When it goes again,
it stays as it is.

Results:

* `Document.throughFilter`: the document with each body as a filter spells it.
* `throughFilter_of_asksAuthentication`: a clause that becomes a subject comes
  back spelled like that, too.
* `Mapping.throughFilter_cedarPolicy`: one exported policy, there and back.
* `Mapping.documentOf_settles`: exported documents.
* `documentOf_unsettled`: an action that is marked twice loses a mark on each
  trip.
-/

namespace PolicyDialects.Cedar

open Idql (Subject)
open PolicyDialects.Condition (celOfFilter celOfFilter_settles filterTextOfCel)

/-! ## Bodies as filters spell them -/

/-- The clause with its body as a filter and then as CEL again. -/
def Clause.throughFilter (c : Clause) : Except PolicyError Clause := do
  let rule ← filterTextOfCel .identity c.body
  return { c with body := ← celOfFilter .identity rule }

/-- The policy with each body sent through a filter. -/
def Policy.throughFilter (q : Policy) : Except PolicyError Policy := do
  return { q with clauses := ← q.clauses.mapM Clause.throughFilter }

/-- The document with each body sent through a filter. -/
def Document.throughFilter (d : Document) : Except PolicyError Document := do
  return { d with policies := ← d.policies.mapM Policy.throughFilter }

theorem Clause.throughFilter_eq_ok {c c' : Clause} :
    c.throughFilter = .ok c' ↔ ∃ rule, filterTextOfCel .identity c.body = .ok rule ∧
      ∃ body, celOfFilter .identity rule = .ok body ∧ c' = { c with body } := by
  refine bind_eq_ok.trans (exists_congr fun rule => and_congr_right fun _ => ?_)
  exact bind_eq_ok.trans (exists_congr fun body => and_congr_right fun _ => ok_eq_ok)

theorem Policy.throughFilter_eq_ok {q q' : Policy} :
    q.throughFilter = .ok q' ↔ ∃ clauses, q.clauses.mapM Clause.throughFilter = .ok clauses ∧
      q' = { q with clauses } :=
  bind_eq_ok.trans (exists_congr fun _ => and_congr_right fun _ => ok_eq_ok)

theorem Document.throughFilter_eq_ok {d d' : Document} :
    d.throughFilter = .ok d' ↔ d.policies.mapM Policy.throughFilter = .ok d'.policies := by
  refine bind_eq_ok.trans ⟨?_, fun h => ⟨_, h, rfl⟩⟩
  rintro ⟨policies, h, heq⟩
  rw [h, ← Except.ok.inj heq]

/-- Bodies do not change any more once they went through filters. -/
theorem Document.throughFilter_settles {d d' d'' : Document} (h : d.throughFilter = .ok d')
    (h' : d'.throughFilter = .ok d'') : d'' = d' := by
  have hclause : ∀ c c' c'' : Clause, c.throughFilter = .ok c' → c'.throughFilter = .ok c'' →
      c'' = c' := by
    intro c c' c'' h h'
    obtain ⟨rule, hrule, body, hbody, rfl⟩ := Clause.throughFilter_eq_ok.mp h
    obtain ⟨rule', hrule', body', hbody', rfl⟩ := Clause.throughFilter_eq_ok.mp h'
    rw [celOfFilter_settles hrule hbody hrule' hbody']
  have hpolicy : ∀ q q' q'' : Policy, q.throughFilter = .ok q' → q'.throughFilter = .ok q'' →
      q'' = q' := by
    intro q q' q'' h h'
    obtain ⟨clauses, hclauses, rfl⟩ := Policy.throughFilter_eq_ok.mp h
    obtain ⟨clauses', hclauses', rfl⟩ := Policy.throughFilter_eq_ok.mp h'
    rw [mapM_settles hclause hclauses hclauses']
  rw [Document.throughFilter_eq_ok] at h h'
  exact congrArg Document.mk (mapM_settles hpolicy h h')

/-! ## Clauses -/

section

variable {m : Mapping}

/-- The clause of a condition that was a clause before. -/
theorem Mapping.throughFilter_of_fold (hnames : m.names = .identity) {condition : Option Clause}
    {o : Option Idql.Condition} {condition' : Option Clause}
    (hfold : m.fold .permit condition.toList = .ok o)
    (hexport : o.mapM m.clauseOf = .ok condition') :
    condition.toList.mapM Clause.throughFilter = .ok condition'.toList := by
  cases condition with
  | none =>
    cases hfold
    cases hexport
    rfl
  | some c =>
    obtain ⟨rule, hrule, h⟩ := bind_eq_ok.mp hfold
    cases h
    obtain ⟨c', hc', rfl⟩ := map_eq_ok.mp hexport
    obtain ⟨body, hbody, rfl⟩ := m.clauseOf_eq_ok hc'
    rw [hnames] at hrule hbody
    have hback : c.throughFilter = .ok { c with body } :=
      Clause.throughFilter_eq_ok.mpr ⟨rule, hrule, body, hbody, rfl⟩
    refine mapM_eq_ok.mpr (.cons (hback.trans ?_) .nil)
    obtain ⟨kind, _⟩ := c
    cases kind <;> rfl

/-- A clause that asks for authentication is the clause of a subject, spelled as
a filter spells it. -/
theorem throughFilter_of_asksAuthentication {c : Clause} (h : asksAuthentication c = .ok true) :
    c.throughFilter = .ok ⟨.when, authenticatedBody⟩ := by
  obtain ⟨hkind, he⟩ := filterOfCel_of_asksAuthentication h
  have hrule : filterTextOfCel .identity c.body = .ok authenticated.text :=
    bind_eq_ok.mpr ⟨_, he, rfl⟩
  have hbody : celOfFilter .identity authenticated.text = .ok authenticatedBody := by
    decide +kernel
  refine Clause.throughFilter_eq_ok.mpr ⟨_, hrule, _, hbody, ?_⟩
  rw [← hkind]

/-! ## Policies -/

/-- Import divides the clauses of an exported policy into those of the subject
that it finds, spelled in some way, and one of a condition at most. -/
theorem Mapping.exists_of_subjectOf {q : Policy} {subject name : String}
    {asked clauses : List Clause} {condition : Option Clause}
    (hscope : m.subjectScope subject = (q.head.principal, asked))
    (hclauses : q.clauses = asked ++ condition.toList)
    (h : subjectOf q = .ok (name, clauses)) :
    ∃ (spelled asked' : List Clause) (condition' : Option Clause),
      q.clauses = spelled ++ condition'.toList ∧ clauses = condition'.toList ∧
        spelled.mapM Clause.throughFilter = .ok asked' ∧
        m.subjectScope name = (q.head.principal, asked') := by
  rcases subjectOf_cases h with ⟨c, hprincipal, rfl, rfl⟩ | ⟨hprincipal, rfl, rfl, hasks⟩ |
      ⟨hprincipal, rfl, c, hasks, hfirst⟩ <;>
    rw [hprincipal] at hscope ⊢
  · obtain ⟨hkeeps, rfl⟩ := m.keepsPrincipal_of_subjectScope hscope
    exact ⟨[], [], condition, hclauses, hclauses, rfl, m.subjectScope_of_keeps hkeeps⟩
  · rcases m.asked_of_subjectScope hscope with rfl | rfl
    · exact ⟨[], [], condition, hclauses, hclauses, rfl, rfl⟩
    · -- import would have taken the first clause for a subject
      rw [hclauses] at hasks
      have hfalse := hasks _ rfl
      rw [asksAuthentication_authenticatedBody] at hfalse
      cases hfalse
  · have hspelled := mapM_eq_ok.mpr (.cons (throughFilter_of_asksAuthentication hasks) .nil)
    rw [hfirst] at hclauses ⊢
    rcases m.asked_of_subjectScope hscope with rfl | rfl
    · cases condition with
      | none => cases hclauses
      | some c' =>
        obtain ⟨rfl, rfl⟩ := List.cons.inj hclauses
        exact ⟨[c], _, none, rfl, rfl, hspelled, rfl⟩
    · obtain ⟨rfl, rfl⟩ := List.cons.inj hclauses
      exact ⟨_, _, condition, rfl, rfl, hspelled, rfl⟩

/-- An exported policy comes back as one policy, with its clauses sent through
filters. -/
theorem Mapping.throughFilter_cedarPolicy (hnames : m.names = .identity) {p : Idql.Policy}
    {condition : Option Clause} {subject : String}
    (hactions : ∀ s ∈ actionScope p.actions, ∀ e ∈ s.entities, IsStableAction e)
    {p' : Idql.Policy} {qs : List Policy}
    (himport : m.policyOf (m.cedarPolicy p condition subject) = .ok p')
    (hexport : m.cedarOf p' = .ok qs) :
    ∃ q, qs = [q] ∧ (m.cedarPolicy p condition subject).throughFilter = .ok q := by
  rcases hscope : m.subjectScope subject with ⟨principal, asked⟩
  rw [m.cedarPolicy_of_subjectScope hscope] at himport ⊢
  obtain ⟨⟨name, clauses⟩, hsubject, h⟩ := bind_eq_ok.mp himport
  obtain ⟨o, hfold, h⟩ := bind_eq_ok.mp h
  obtain rfl := Except.ok.inj h
  obtain ⟨condition', hclause, rfl⟩ := m.cedarOf_eq_ok.mp hexport
  obtain ⟨spelled, asked', left, hclauses, rfl, hspelled, hname⟩ :=
    m.exists_of_subjectOf hscope rfl hsubject
  have hbodies := mapM_append_eq_ok hspelled (m.throughFilter_of_fold hnames hfold hclause)
  rw [← hclauses] at hbodies
  refine ⟨_, rfl, Policy.throughFilter_eq_ok.mpr ⟨_, hbodies, ?_⟩⟩
  have haction := actionScope_action fun s hs => keepsActions_actionScope hs (hactions s hs)
  have hresource := m.objectScope_resource (o := m.objectScope p.object)
    fun _ hc => m.keepsScope_objectScope hc
  rw [m.cedarPolicy_of_subjectScope hname]
  simp only [note?_idKey, note?_descriptionKey, haction, hresource]
  rfl

/-! ## Documents -/

/-- The actions of a document come back from their names. -/
def Document.HasStableActions (d : Document) : Prop :=
  ∀ q ∈ d.policies, ∀ s ∈ q.head.action, ∀ e ∈ s.entities, IsStableAction e

instance : DecidablePred Document.HasStableActions := fun d =>
  inferInstanceAs
    (Decidable (∀ q ∈ d.policies, ∀ s ∈ q.head.action, ∀ e ∈ s.entities, IsStableAction e))

theorem Document.HasStableActions.throughFilter {d d' : Document} (h : d.HasStableActions)
    (hd : d.throughFilter = .ok d') : d'.HasStableActions := by
  intro q' hq'
  obtain ⟨q, hq, hback⟩ := exists_of_mem_mapM (Document.throughFilter_eq_ok.mp hd) hq'
  obtain ⟨clauses, -, rfl⟩ := Policy.throughFilter_eq_ok.mp hback
  exact h q hq

/-- An exported document comes back with its bodies sent through filters. -/
theorem Mapping.throughFilter_documentOf (hnames : m.names = .identity)
    {policies policies' : List Idql.Policy} {d d' : Document}
    (hexport : m.documentOf policies = .ok d) (hactions : d.HasStableActions)
    (himport : m.policiesOf d = .ok policies') (hback : m.documentOf policies' = .ok d') :
    d.throughFilter = .ok d' := by
  obtain ⟨qss, hmapped, h⟩ := bind_eq_ok.mp hback
  cases h
  refine Document.throughFilter_eq_ok.mpr (mapM_flatten_eq_ok himport hmapped ?_)
  intro q hq p' qs hp' hqs
  obtain ⟨p, -, condition, subject, heq⟩ := m.exists_of_mem_documentOf hexport hq
  rw [heq] at hq hp' ⊢
  refine m.throughFilter_cedarPolicy hnames (fun s hs => hactions _ hq s ?_) hp' hqs
  rw [m.action_cedarPolicy]
  exact hs

/-- An exported document comes back from IDQL with each body replaced by what
comes back of it from a filter, and with nothing else changed. If it goes to
IDQL and back again, it stays as it is. -/
theorem Mapping.documentOf_settles (hnames : m.names = .identity)
    {policies policies' : List Idql.Policy} {d d' : Document}
    (hexport : m.documentOf policies = .ok d) (hactions : d.HasStableActions)
    (himport : m.policiesOf d = .ok policies') (hback : m.documentOf policies' = .ok d') :
    d.throughFilter = .ok d' ∧
      ∀ policies'' d'', m.policiesOf d' = .ok policies'' → m.documentOf policies'' = .ok d'' →
        d'' = d' := by
  have hd' := m.throughFilter_documentOf hnames hexport hactions himport hback
  refine ⟨hd', fun policies'' d'' himport' hback' => ?_⟩
  have hactions' := hactions.throughFilter hd'
  have hd'' := m.throughFilter_documentOf hnames hback hactions' himport' hback'
  exact Document.throughFilter_settles hd' hd''

end

/-- A policy for everyone who is authenticated and for everyone, under the
condition that the request is authenticated. -/
def spaced : Idql.Policy where
  info := { policyId := some "p" }
  subjects := [" jwt:issuer", "any"]
  actions := ["read", "cedar:Op::\"a\""]
  object := " Folder::\"f\""
  condition := some ⟨"(context.authenticated eq true)", .allow⟩

/-- Its document, with the clauses of the first and of the second policy. -/
def spacedDocument (first second : List Clause) : Document where
  policies :=
    let policy (clauses : List Clause) : Policy :=
      { notes := [⟨"id", some "p"⟩],
        effect := .permit,
        head := { action := some (.in ["Action::\"read\"", "Op::\"a\""]),
                  resource := some ⟨.in, "Folder::\"f\""⟩ },
        clauses }
    [policy first, policy second]

/-- The policies of the document, with the condition of the first one. -/
def spacedPolicies : List Idql.Policy :=
  let policy (condition : Option Idql.Condition) : Idql.Policy :=
    { info := { policyId := some "p" },
      subjects := ["anyAuthenticated"],
      actions := ["read", "Op::\"a\""],
      object := "Folder::\"f\"",
      condition }
  [policy (some ⟨"context.authenticated eq true", .allow⟩), policy none]

theorem documentOf_settles_spaced :
    let asked : Clause := ⟨.when, authenticatedBody⟩
    let condition : Clause := ⟨.when, "(context.authenticated == true)"⟩
    let d := spacedDocument [asked, condition] [condition]
    let d' := spacedDocument [asked, asked] [asked]
    Mapping.documentOf {} [spaced] = .ok d ∧ d.HasStableActions ∧
      Mapping.policiesOf {} d = .ok spacedPolicies ∧ Mapping.documentOf {} spacedPolicies = .ok d' ∧
      d.throughFilter = .ok d' ∧ Mapping.policiesOf {} d' = .ok spacedPolicies := by
  intro asked condition d d'
  have hexport : Mapping.documentOf {} [spaced] = .ok d := by decide +kernel
  have hactions : d.HasStableActions := by decide +kernel
  have himport : Mapping.policiesOf {} d = .ok spacedPolicies := by decide +kernel
  have hback : Mapping.documentOf {} spacedPolicies = .ok d' := by decide +kernel
  have hsettled := Mapping.documentOf_settles (m := {}) rfl hexport hactions himport hback
  exact ⟨hexport, hactions, himport, hback, hsettled.1, by decide +kernel⟩

/-- The document of a policy for everyone with an action. -/
def onAction (entity : String) : Document :=
  ⟨[{ effect := .permit, head := { action := some (.eq entity) } }]⟩

/-- An action that is marked for Cedar twice loses a mark on each trip, though
its entity is not of type `Action`. -/
theorem documentOf_unsettled :
    Mapping.documentOf {} [{ subjects := ["any"], actions := ["cedar:cedar:X::Y"] }] =
        .ok (onAction "cedar:X::Y") ∧
      actionId? "cedar:X::Y" = none ∧
      Mapping.policiesOf {} (onAction "cedar:X::Y") =
        .ok [{ subjects := ["any"], actions := ["cedar:X::Y"] }] ∧
      Mapping.documentOf {} [{ subjects := ["any"], actions := ["cedar:X::Y"] }] =
        .ok (onAction "X::Y") ∧
      (onAction "cedar:X::Y").throughFilter ≠ .ok (onAction "X::Y") := by
  refine ⟨by decide +kernel, by decide, by decide +kernel, by decide +kernel, ?_⟩
  intro h
  exact absurd (Document.throughFilter_eq_ok.mp h) (by decide +kernel)

end PolicyDialects.Cedar
