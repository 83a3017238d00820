import PolicyDialects.Proofs.Cedar.Folding
import PolicyDialects.Proofs.Condition.Refusal

/-!
# Documents through IDQL and back

An IDQL policy has neither an effect nor operators for its subjects and
objects. Import puts the effect into the condition, and export finds the
operators again by the types of entities.

Results:

* `Mapping.permits_throughIdql`: where the constraints of a document are the ones
  that export finds, what comes back permits only what a `permit` policy applies
  to, or what the slots of a `forbid` policy match and its clauses do not all
  hold for; without `forbid` policies it permits no more than the document.
* `forall_widens_widened`: other documents may come back with more.
-/

namespace PolicyDialects

open PolicyDialects.Filter (Comparison Expression IsUnbroken)

/-- The name of an attribute is one word in IDQL, and the map leads back from
it. -/
structure NameMap.Returns (names : NameMap) (path : String) : Prop where
  isUnbroken : IsUnbroken (names.toIdql path)
  resolve_eq : names.resolveProvider (names.toIdql path) = .ok path

instance (names : NameMap) : DecidablePred names.Returns := fun path =>
  decidable_of_iff (IsUnbroken (names.toIdql path) ∧
      names.resolveProvider (names.toIdql path) = .ok path)
    ⟨fun h => ⟨h.1, h.2⟩, fun h => ⟨h.isUnbroken, h.resolve_eq⟩⟩

theorem NameMap.Returns.toProvider_eq {names : NameMap} {path : String}
    (h : names.Returns path) : names.toProvider (names.toIdql path) = path :=
  NameMap.rename_of_resolve h.resolve_eq

namespace Cedar

open Cel (Tree)
open Idql (EntityKind Subject)
open PolicyDialects.Condition (filterOfCel)
open Text

/-! ## What comes back -/

/-- The operator that export chooses for an entity. -/
def Mapping.operatorOf (m : Mapping) (entity : String) : ScopeOperator :=
  match EntityKind.of m.containerTypes entity with
  | .single => .eq
  | .container => .in

/-- The constraint is one that export finds again. -/
structure Mapping.KeepsScope (m : Mapping) (c : Scope) : Prop where
  trimmed : trimmed c.entity = c.entity
  isEmpty : c.entity.isEmpty = false
  operator : c.operator = m.operatorOf c.entity

/-- The constraint to a principal is one that export finds again: its entity is
not called like a subject that stands for everyone. -/
structure Mapping.KeepsPrincipal (m : Mapping) (c : Scope) : Prop extends m.KeepsScope c where
  any : sameFold c.entity Subject.anyName = false
  anyAuthenticated : sameFold c.entity Subject.anyAuthenticatedName = false
  isScheme : Subject.isScheme c.entity = false

instance (m : Mapping) : DecidablePred m.KeepsScope := fun c =>
  decidable_of_iff (Text.trimmed c.entity = c.entity ∧ c.entity.isEmpty = false ∧
      c.operator = m.operatorOf c.entity)
    ⟨fun h => ⟨h.1, h.2.1, h.2.2⟩, fun h => ⟨h.trimmed, h.isEmpty, h.operator⟩⟩

instance (m : Mapping) : DecidablePred m.KeepsPrincipal := fun c =>
  decidable_of_iff (m.KeepsScope c ∧ sameFold c.entity Subject.anyName = false ∧
      sameFold c.entity Subject.anyAuthenticatedName = false ∧ Subject.isScheme c.entity = false)
    ⟨fun h => ⟨h.1, h.2.1, h.2.2.1, h.2.2.2⟩,
      fun h => ⟨h.toKeepsScope, h.any, h.anyAuthenticated, h.isScheme⟩⟩

/-- The constraint to actions is one that export finds again: a list has more
than one action, and the name of each leads back to it. -/
def KeepsActions : ActionScope → Prop
  | .eq e => actionEntity (actionName e) = e
  | .in es => 2 ≤ es.length ∧ ∀ e ∈ es, actionEntity (actionName e) = e

instance : DecidablePred KeepsActions
  | .eq e => inferInstanceAs (Decidable (actionEntity (actionName e) = e))
  | .in es =>
    inferInstanceAs (Decidable (2 ≤ es.length ∧ ∀ e ∈ es, actionEntity (actionName e) = e))

/-- The policy comes back with its constraints, and its attributes with their
names. -/
structure Mapping.Keeps (m : Mapping) (p : Policy) : Prop where
  principal : ∀ c ∈ p.head.principal, m.KeepsPrincipal c
  action : ∀ s ∈ p.head.action, KeepsActions s
  resource : ∀ c ∈ p.head.resource, m.KeepsScope c
  finite : ∀ c ∈ p.clauses, Yields Tree.FloatsFinite (Tree.parse c.body)
  names : ∀ c ∈ p.clauses,
    Yields (Expression.Each (fun _ => True) fun comparison => m.names.Returns comparison.path)
      (filterOfCel .identity c.body)

section

variable {m : Mapping}

theorem Mapping.KeepsScope.eq {c : Scope} (h : m.KeepsScope c) :
    c = ⟨m.operatorOf c.entity, c.entity⟩ := by
  rw [← h.operator]

/-- Export drops the blanks around an object, and finds the operator by its type. -/
theorem Mapping.objectScope_eq (m : Mapping) (object : String) :
    m.objectScope object =
      if (trimmed object).isEmpty then none
      else some ⟨m.operatorOf (trimmed object), trimmed object⟩ := by
  unfold Mapping.objectScope Mapping.operatorOf
  dsimp only
  split_ifs
  · rfl
  · cases EntityKind.of m.containerTypes (trimmed object) <;> rfl

/-- The same for a subject that does not stand for everyone, or everyone who is
authenticated. -/
theorem Mapping.subjectScope_eq (m : Mapping) (subject : String) :
    m.subjectScope subject =
      if (trimmed subject).isEmpty || sameFold (trimmed subject) Subject.anyName then (none, [])
      else if sameFold (trimmed subject) Subject.anyAuthenticatedName ||
          Subject.isScheme (trimmed subject) then (none, [⟨.when, authenticatedBody⟩])
      else (some ⟨m.operatorOf (trimmed subject), trimmed subject⟩, []) := by
  unfold Mapping.subjectScope Mapping.operatorOf Subject.classify
  dsimp only
  split_ifs
  · rfl
  · rfl
  · cases EntityKind.of m.containerTypes (trimmed subject) <;> rfl

theorem Mapping.subjectScope_of_keeps {c : Scope} (h : m.KeepsPrincipal c) :
    m.subjectScope c.entity = (some c, []) := by
  conv_rhs => rw [h.toKeepsScope.eq]
  rw [m.subjectScope_eq, h.trimmed, if_neg, if_neg]
  · simp [h.anyAuthenticated, h.isScheme]
  · simp [h.isEmpty, h.any]

theorem Mapping.objectScope_of_keeps {c : Scope} (h : m.KeepsScope c) :
    m.objectScope c.entity = some c := by
  conv_rhs => rw [h.eq]
  rw [m.objectScope_eq, h.trimmed, if_neg]
  simp [h.isEmpty]

theorem Mapping.objectScope_resource {o : Option Scope} (h : ∀ c ∈ o, m.KeepsScope c) :
    m.objectScope ((o.map (·.entity)).getD "") = o := by
  cases o with
  | none => rfl
  | some c => exact m.objectScope_of_keeps (h c rfl)

theorem actionScope_of_two_le {actions : List String} (h : 2 ≤ actions.length) :
    actionScope actions = some (.in (actions.map actionEntity)) := by
  match actions with
  | [] => cases h
  | [_] => exact absurd h (by simp)
  | _ :: _ :: _ => rfl

theorem actionScope_of_keeps {s : ActionScope} (h : KeepsActions s) :
    actionScope (s.entities.map actionName) = some s := by
  cases s with
  | eq e =>
    have he : actionEntity (actionName e) = e := h
    show some (ActionScope.eq (actionEntity (actionName e))) = _
    rw [he]
  | «in» es =>
    obtain ⟨hlength, hentities⟩ := h
    have hmap : (es.map actionName).map actionEntity = es := by
      rw [List.map_map]
      exact (List.map_congr_left hentities).trans (List.map_id' _)
    rw [← List.length_map (f := actionName)] at hlength
    rw [ActionScope.entities, actionScope_of_two_le hlength, hmap]

theorem actionScope_action {o : Option ActionScope} (h : ∀ s ∈ o, KeepsActions s) :
    actionScope ((o.map fun s => s.entities.map actionName).getD []) = o := by
  cases o with
  | none => rfl
  | some s => exact actionScope_of_keeps (h s rfl)

end

/-! ## Clauses -/

section

variable {m : Mapping} {r : Request}

/-- The truth of comparisons in a request, whatever filter they stand in. -/
def Request.truth (r : Request) : List String → Comparison → Bool := fun _ => r.comparison

/-- The comparison is read back from its text, and can be exported under a
name. -/
structure IsReturned (names : NameMap) (c : Comparison) : Prop where
  isLexical : c.IsLexical
  resolve_eq : names.resolveProvider c.path = .ok (names.toProvider c.path)
  isExportable : (c.mapPath names.toProvider).IsExportable

theorem isLexical_mapPath {f : String → String} {c : Comparison} (hc : c.IsExportable)
    (h : IsUnbroken (f c.path)) : (c.mapPath f).IsLexical := ⟨h, hc.value_iff, hc.finite⟩

theorem isReturned_mapPath {names : NameMap} {c : Comparison} (hc : c.IsExportable)
    (h : names.Returns c.path) : IsReturned names (c.mapPath names.toIdql) where
  isLexical := isLexical_mapPath hc h.isUnbroken
  resolve_eq := by rw [Comparison.path_mapPath, h.toProvider_eq, h.resolve_eq]
  isExportable := by rw [Comparison.mapPath_mapPath h.toProvider_eq]; exact hc

/-- The filter of a clause whose names come back. -/
theorem Clause.mirrors_of_returns {c : Clause}
    (hfinite : Yields Tree.FloatsFinite (Tree.parse c.body))
    (hnames : Yields (Expression.Each (fun _ => True) fun comparison =>
      m.names.Returns comparison.path) (filterOfCel .identity c.body)) :
    Yields (c.Mirrors (IsReturned m.names) (Expression.truthBefore m.names.toProvider r.truth) r)
      (filterOfCel m.names c.body) := by
  intro e he
  obtain ⟨t, hparse, he⟩ := bind_eq_ok.mp he
  obtain ⟨⟨e₀, himports, rfl⟩, hd⟩ := Tree.exists_imports_of_toFilterAt he
  have hreturns := hnames e₀
    (bind_eq_ok.mpr ⟨t, hparse, Tree.toFilterAt_eq_ok_iff.mpr ⟨himports, hd⟩⟩)
  have hparts := himports.each_isExportable (Cel.named_of_parse hparse) (hfinite t hparse)
  have hback : (e₀.mapPaths m.names.toIdql).mapPaths m.names.toProvider = e₀ := by
    rw [Expression.mapPaths_mapPaths]
    exact Expression.mapPaths_eq_self
      ((hparts.and hreturns).imp (fun _ h => h.1.elim) fun _ h => h.2.toProvider_eq)
  refine ⟨Expression.each_mapPaths _ |>.mpr ?_, Expression.orsApart_mapPaths.mpr himports.orsApart,
    ?_⟩
  · exact (hparts.and hreturns).imp (fun _ h => h.1) fun _ h => isReturned_mapPath h.1 h.2
  · rw [← Expression.holds_mapPaths, hback]
    exact c.holds_of_imports hparse himports r.truth rfl

theorem Clause.holds_of_celTree {kind : ClauseKind} {body : String} {e : Expression}
    (he : e.IsExportable) (hparse : Tree.parse body = .ok e.celTree) :
    Clause.holds r ⟨kind, body⟩ = (e.holds r.truth != decide (kind = .unless)) := by
  obtain ⟨e', himports, -, hholds⟩ := Expression.imports_celTree he false
  rw [Clause.holds_of_imports (c := ⟨kind, body⟩) hparse himports r.truth rfl, hholds]

theorem Mapping.clauseOf_eq_ok {rule : String} {deny : Bool} {c : Clause}
    (h : m.clauseOf (conditionOf rule deny) = .ok c) :
    ∃ body, PolicyDialects.Condition.celOfFilter m.names rule = .ok body ∧
      c = ⟨if deny then .unless else .when, body⟩ := by
  obtain ⟨body, hbody, h⟩ := bind_eq_ok.mp h
  have hrule : (conditionOf rule deny).rule = rule := rfl
  rw [hrule] at hbody
  refine ⟨body, hbody, ?_⟩
  cases deny <;> exact (Except.ok.inj h).symm

/-- The clause of an exported condition holds only if the condition lets the
request through. -/
theorem Mapping.letsThrough_of_clauseOf {e : Expression} {deny : Bool} {c : Clause}
    (hparts : e.Each (fun _ => False) (IsReturned m.names)) (hors : e.OrsApart)
    (h : m.clauseOf (conditionOf e.text deny) = .ok c) (hholds : c.holds r = true) :
    (e.holds (Expression.truthBefore m.names.toProvider r.truth) != deny) = true := by
  obtain ⟨body, hbody, rfl⟩ := m.clauseOf_eq_ok h
  obtain ⟨f, hread, htext⟩ := bind_eq_ok.mp hbody
  have hlexical : e.IsLexical := hparts.imp (fun _ => False.elim) fun _ hc => hc.isLexical
  obtain ⟨⟨-, -, hdepth⟩, rfl⟩ := (Expression.parse_text hlexical hors).eq_of_ok hread
  have hcanonical : e.canonical.Each (fun _ => False) (IsReturned m.names) :=
    (Expression.each_canonical e).mpr hparts
  have hresolved : e.canonical.IsResolved m.names :=
    hcanonical.imp (fun _ => False.elim) fun _ hc => hc.resolve_eq
  have hexportable : (e.canonical.mapPaths m.names.toProvider).IsExportable :=
    (Expression.each_mapPaths _).mpr
      (hcanonical.imp (fun _ => False.elim) fun _ hc => hc.isExportable)
  rw [← Expression.depth_mapPaths (f := m.names.toProvider)] at hdepth
  have hwritten := Expression.toCel_written hexportable.isWritable hdepth
  rw [Expression.toCel, Expression.toCelAt_mapPaths hresolved] at htext
  obtain rfl := Except.ok.inj (hwritten.symm.trans htext)
  have hvalue : (e.canonical.mapPaths m.names.toProvider).written.holds r.truth =
      e.holds (Expression.truthBefore m.names.toProvider r.truth) := by
    rw [Expression.holds_written, Expression.holds_mapPaths, Expression.holds_canonical]
  rcases Expression.parse_written_or_refused hexportable with hparse | ⟨err, hparse⟩
  · rw [Clause.holds_of_celTree (Expression.isExportable_written hexportable) hparse,
      hvalue] at hholds
    cases deny <;> exact hholds
  · -- what cannot be read holds of no request
    unfold Clause.holds at hholds
    rw [hparse] at hholds
    cases hholds

/-! ## Policies -/

/-- The clause that export writes for everyone who is authenticated. -/
theorem holds_authenticated (r : Request) :
    Clause.holds r ⟨.when, authenticatedBody⟩ = authenticated.holds r.truth := by
  have hexportable : authenticated.IsExportable := by decide
  have hparse : Tree.parse authenticatedBody = .ok authenticated.celTree :=
    Expression.parse_celText (e := authenticated) hexportable trivial trivial
  exact (Clause.holds_of_celTree hexportable hparse).trans (Bool.bne_false _)

theorem exists_of_asksAuthentication {c : Clause} (h : asksAuthentication c = .ok true) :
    c.kind = .when ∧ ∃ e, filterOfCel .identity c.body = .ok e ∧
      e.unparenthesized = authenticated := by
  unfold asksAuthentication at h
  cases hkind : c.kind with
  | «unless» => rw [hkind] at h; cases h
  | when =>
    rw [hkind] at h
    dsimp only at h
    split at h
    · rename_i e he
      exact ⟨rfl, e, he, of_decide_eq_true (Except.ok.inj h)⟩
    · cases h
    · cases h

theorem holds_of_asksAuthentication {c : Clause} (h : asksAuthentication c = .ok true)
    (r : Request) : c.holds r = authenticated.holds r.truth := by
  obtain ⟨hkind, e, he, heq⟩ := exists_of_asksAuthentication h
  obtain ⟨t, hparse, he⟩ := bind_eq_ok.mp he
  have himports := (Tree.imports_of_toFilterAt he).1
  rw [c.holds_of_imports hparse himports r.truth rfl, hkind, ← heq,
    Expression.holds_unparenthesized]
  exact Bool.bne_false _

/-- Where the subject of a policy comes from: its principal, its first clause, or
neither. -/
theorem subjectOf_cases {p : Policy} {subject : String} {clauses : List Clause}
    (h : subjectOf p = .ok (subject, clauses)) :
    (∃ c, p.head.principal = some c ∧ subject = c.entity ∧ clauses = p.clauses) ∨
      (p.head.principal = none ∧ subject = Subject.anyName ∧ clauses = p.clauses ∧
        ∀ c ∈ p.clauses.head?, asksAuthentication c = .ok false) ∨
      p.head.principal = none ∧ subject = Subject.anyAuthenticatedName ∧
        ∃ c, asksAuthentication c = .ok true ∧ p.clauses = c :: clauses := by
  unfold subjectOf at h
  split at h
  · rename_i c hprincipal
    cases h
    exact .inl ⟨c, hprincipal, rfl, rfl⟩
  · rename_i hprincipal hclauses
    cases h
    exact .inr (.inl ⟨hprincipal, rfl, hclauses.symm, by rw [hclauses]; rintro _ ⟨⟩⟩)
  · rename_i c rest hprincipal hclauses
    obtain ⟨asks, hasks, h⟩ := bind_eq_ok.mp h
    cases asks with
    | true =>
      cases h
      exact .inr (.inr ⟨hprincipal, rfl, c, hasks, hclauses⟩)
    | false =>
      cases h
      exact .inr (.inl ⟨hprincipal, rfl, hclauses.symm, by rw [hclauses]; rintro _ ⟨⟩; exact hasks⟩)

/-- Subject and clauses say together what principal and clauses did. -/
theorem Mapping.subjectScope_of_subjectOf {p : Policy} {subject : String} {clauses : List Clause}
    (h : subjectOf p = .ok (subject, clauses)) (hkeeps : m.Keeps p) :
    ∃ asked, m.subjectScope subject = (p.head.principal, asked) ∧ clauses ⊆ p.clauses ∧
      ∀ r, p.clauses.all (·.holds r) = (asked.all (·.holds r) && clauses.all (·.holds r)) := by
  rcases subjectOf_cases h with ⟨c, hprincipal, rfl, rfl⟩ | ⟨hprincipal, rfl, rfl, -⟩ |
      ⟨hprincipal, rfl, c, hasks, hclauses⟩ <;>
    rw [hprincipal]
  · refine ⟨[], ?_, List.Subset.refl _, fun r => (Bool.true_and _).symm⟩
    exact m.subjectScope_of_keeps (hkeeps.principal c hprincipal)
  · exact ⟨[], rfl, List.Subset.refl _, fun r => (Bool.true_and _).symm⟩
  · rw [hclauses]
    refine ⟨[⟨.when, authenticatedBody⟩], rfl, List.subset_cons_self _ _, fun r => ?_⟩
    rw [List.all_cons, List.all_cons, holds_of_asksAuthentication hasks, holds_authenticated,
      List.all_nil, Bool.and_true]

theorem Mapping.fold_eq_none {effect : Effect} {clauses : List Clause}
    (h : m.fold effect clauses = .ok none) : clauses = [] ∧ effect = .permit := by
  match clauses with
  | [] => cases effect <;> first | exact ⟨rfl, rfl⟩ | cases h
  | [_] =>
    obtain ⟨_, -, h⟩ := bind_eq_ok.mp h
    cases h
  | _ :: _ :: _ =>
    obtain ⟨_, -, h⟩ := bind_eq_ok.mp h
    obtain ⟨_, -, h⟩ := bind_eq_ok.mp h
    cases h

/-- The clauses of an exported condition hold only if the folded clauses did, or
for a policy that forbids did not. -/
theorem Mapping.all_holds_of_condition {effect : Effect} {clauses : List Clause}
    {o : Option Idql.Condition} {o' : Option Clause} (hfold : m.fold effect clauses = .ok o)
    (hexport : o.mapM m.clauseOf = .ok o')
    (hclauses : ∀ c ∈ clauses, Yields (c.Mirrors (IsReturned m.names)
      (Expression.truthBefore m.names.toProvider r.truth) r)
      (filterOfCel m.names c.body))
    (hholds : o'.toList.all (·.holds r) = true) :
    clauses.all (·.holds r) = decide (effect = .permit) := by
  cases o with
  | none =>
    obtain ⟨rfl, rfl⟩ := m.fold_eq_none hfold
    rfl
  | some condition =>
    obtain ⟨e, deny, rfl, hparts, hors, hvalue⟩ := m.fold_eq_ok hfold hclauses
    obtain ⟨c, hc, rfl⟩ := map_eq_ok.mp hexport
    have hc' : c.holds r = true := by simpa using hholds
    rw [m.letsThrough_of_clauseOf hparts hors hc hc'] at hvalue
    cases effect with
    | permit => exact (Bool.bne_false _).symm.trans hvalue.symm
    | forbid => simpa using hvalue

/-- A policy that comes back applies only where the slots of the policy match
and its clauses hold, or, if it forbids, do not all hold. -/
theorem Mapping.admits_of_applies {p p' : Policy} {q : Idql.Policy} {qs : List Policy}
    (himport : m.policyOf p = .ok q) (hexport : m.cedarOf q = .ok qs) (hmem : p' ∈ qs)
    (hkeeps : m.Keeps p) (happlies : p'.applies r = true) :
    p.head.admits r = true ∧ p.clauses.all (·.holds r) = decide (p.effect = .permit) := by
  obtain ⟨⟨subject, clauses⟩, hsubject, h⟩ := bind_eq_ok.mp himport
  obtain ⟨condition, hfold, h⟩ := bind_eq_ok.mp h
  cases h
  obtain ⟨clause, hclause, h⟩ := bind_eq_ok.mp hexport
  cases h
  obtain ⟨asked, hscope, hsubset, hall⟩ := m.subjectScope_of_subjectOf hsubject hkeeps
  obtain rfl := List.mem_singleton.mp hmem
  have hadmits : p.head.admits r = true ∧
      (asked ++ clause.toList).all (·.holds r) = true := by
    simp only [hscope, actionScope_action hkeeps.action, m.objectScope_resource hkeeps.resource,
      Policy.applies, Bool.and_eq_true] at happlies
    exact happlies
  obtain ⟨hhead, hclauses⟩ := hadmits
  rw [List.all_append, Bool.and_eq_true] at hclauses
  refine ⟨hhead, ?_⟩
  rw [hall r, hclauses.1, Bool.true_and]
  refine m.all_holds_of_condition hfold hclause (fun c hc => ?_) hclauses.2
  exact c.mirrors_of_returns (hkeeps.finite c (hsubset hc)) (hkeeps.names c (hsubset hc))

/-! ## Documents -/

/-- What a document permits that comes back from IDQL, some policy of the
document explains: a `permit` policy that applies, or a `forbid` policy whose
slots match and whose clauses do not all hold. A document of `permit` policies
permits it itself. -/
theorem Mapping.permits_throughIdql {d d' : Document} {policies : List Idql.Policy}
    (himport : m.policiesOf d = .ok policies) (hexport : m.documentOf policies = .ok d')
    (hkeeps : ∀ p ∈ d.policies, m.Keeps p) (hpermits : d'.permits r = true) :
    (∃ p ∈ d.policies, p.head.admits r = true ∧
        p.clauses.all (·.holds r) = decide (p.effect = .permit)) ∧
      ((∀ p ∈ d.policies, p.effect = .permit) → d.permits r = true) := by
  obtain ⟨qss, hmapped, h⟩ := bind_eq_ok.mp hexport
  cases h
  have hdecides := (Bool.and_eq_true_iff.mp hpermits).1
  obtain ⟨p', hmem, hp'⟩ := List.any_eq_true.mp hdecides
  have happlies := (Bool.and_eq_true_iff.mp hp').2
  obtain ⟨qs, hqs, hmem⟩ := List.mem_flatten.mp hmem
  obtain ⟨q, hq, hcedar⟩ := exists_of_mem_mapM hmapped hqs
  obtain ⟨p, hp, hpolicy⟩ := exists_of_mem_mapM himport hq
  obtain ⟨hadmits, hclauses⟩ := m.admits_of_applies hpolicy hcedar hmem (hkeeps p hp) happlies
  refine ⟨⟨p, hp, hadmits, hclauses⟩, fun hall => ?_⟩
  have hpermit : d.decides r .permit = true := by
    refine List.any_eq_true.mpr ⟨p, hp, ?_⟩
    rw [hall p hp] at hclauses ⊢
    rw [Policy.applies, hadmits, hclauses]
    rfl
  have hforbid : d.decides r .forbid = false := by
    refine List.any_eq_false.mpr fun p hp => ?_
    rw [hall p hp]
    exact Bool.false_ne_true
  rw [Document.permits, hpermit, hforbid]
  rfl

end

/-- In IDQL, `dept` stands for `principal.dept`. -/
def departments : Mapping where
  names :=
    { pairs := [⟨"dept", "principal.dept"⟩],
      idql_nodup := by decide,
      provider_nodup := by decide }

/-- A document with two clauses in the first policy, and in the second a clause
that becomes the subject. -/
def kept : Document where
  policies :=
    [{ effect := .permit,
       head := { principal := some ⟨.eq, "User::\"u\""⟩,
                 action := some (.in ["Action::\"read\"", "Action::\"write\""]),
                 resource := some ⟨.in, "Folder::\"f\""⟩ },
       clauses := [⟨.when, "has(principal.dept) || a == 1"⟩, ⟨.unless, "has(b)"⟩] },
     { effect := .permit,
       head := {},
       clauses := [⟨.when, authenticatedBody⟩, ⟨.unless, "has(b)"⟩] }]

/-- The IDQL policies of the document. -/
def keptPolicies : List Idql.Policy :=
  [{ subjects := ["User::\"u\""],
     actions := ["read", "write"],
     object := "Folder::\"f\"",
     condition := some ⟨"(dept pr or a eq 1) and not(b pr)", .allow⟩ },
   { subjects := ["anyAuthenticated"],
     condition := some ⟨"b pr", .deny⟩ }]

/-- The document that comes back, with the clauses of the first policy joined. -/
def keptBack : Document where
  policies :=
    [{ effect := .permit,
       head := { principal := some ⟨.eq, "User::\"u\""⟩,
                 action := some (.in ["Action::\"read\"", "Action::\"write\""]),
                 resource := some ⟨.in, "Folder::\"f\""⟩ },
       clauses := [⟨.when, "(has(principal.dept) || a == 1) && !has(b)"⟩] },
     { effect := .permit,
       head := {},
       clauses := [⟨.when, authenticatedBody⟩, ⟨.unless, "has(b)"⟩] }]

/-- A request that all constraints match, with a department and nothing else. -/
def ofDepartment : Request where
  principal _ := true
  action _ := true
  resource _ := true
  comparison c := c = .present "principal.dept"

theorem permits_throughIdql_kept :
    departments.policiesOf kept = .ok keptPolicies ∧
      departments.documentOf keptPolicies = .ok keptBack ∧
      (∀ p ∈ kept.policies, departments.Keeps p) ∧ keptBack.permits ofDepartment = true ∧
      kept.permits ofDepartment = true := by
  let present (path : String) : Expression := .compare (.present path)
  let either : Expression := .or (present "principal.dept") (.compare (.with "a" .eq (.integer 1)))
  have heither : Yields Tree.FloatsFinite (Tree.parse "has(principal.dept) || a == 1") := by
    refine .of_eq_ok (Expression.parse_celText (e := either) (by decide) ⟨trivial, trivial⟩
      ⟨rfl, trivial, trivial⟩) (.or (.call trivial ?_)
        (.relation (.ident trivial) (.constant trivial)))
    exact List.forall_mem_singleton.mpr (.select (.ident trivial) trivial)
  have hpresent : Yields Tree.FloatsFinite (Tree.parse "has(b)") :=
    .of_eq_ok (Expression.parse_celText (e := present "b") (by decide) trivial trivial)
      (.call trivial (List.forall_mem_singleton.mpr (.ident trivial)))
  have hauthenticated : Yields Tree.FloatsFinite (Tree.parse authenticatedBody) :=
    .of_eq_ok (Expression.parse_celText (e := authenticated) (by decide) trivial trivial)
      (.relation (.select (.ident trivial) trivial) (.constant trivial))
  have hkeeps : ∀ p ∈ kept.policies, departments.Keeps p := by
    refine List.forall_mem_cons.mpr ⟨?_, List.forall_mem_singleton.mpr ?_⟩
    · refine ⟨by decide +kernel, by decide +kernel, by decide +kernel, ?_, by decide +kernel⟩
      exact List.forall_mem_cons.mpr ⟨heither, List.forall_mem_singleton.mpr hpresent⟩
    · refine ⟨by decide +kernel, by decide +kernel, by decide +kernel, ?_, by decide +kernel⟩
      exact List.forall_mem_cons.mpr ⟨hauthenticated, List.forall_mem_singleton.mpr hpresent⟩
  have himport : departments.policiesOf kept = .ok keptPolicies := by decide +kernel
  have hexport : departments.documentOf keptPolicies = .ok keptBack := by decide +kernel
  have hpermits : keptBack.permits ofDepartment = true := by decide +kernel
  exact ⟨himport, hexport, hkeeps, hpermits,
    (Mapping.permits_throughIdql himport hexport hkeeps hpermits).2 (by decide)⟩

/-! ## Documents that grant more when they come back -/

/-- A document, what becomes of it under a map of names, and a request. -/
structure RoundTrip where
  names : NameMap := .identity
  document : Document
  policies : List Idql.Policy
  back : Document
  request : Request

/-- The mapping with the names of the round trip. -/
def RoundTrip.mapping (x : RoundTrip) : Mapping := { names := x.names }

/-- Its document comes back as one that permits the request, which the document
itself does not. -/
def RoundTrip.Widens (x : RoundTrip) : Prop :=
  x.mapping.policiesOf x.document = .ok x.policies ∧
    x.mapping.documentOf x.policies = .ok x.back ∧
    x.back.permits x.request = true ∧ x.document.permits x.request = false

instance : DecidablePred RoundTrip.Widens := fun _ =>
  inferInstanceAs (Decidable (_ ∧ _ ∧ _ ∧ _))

/-- The document of one policy that permits. -/
def permitting (head : Head) (clauses : List Clause) : Document :=
  ⟨[{ effect := .permit, head, clauses }]⟩

/-- A request that all constraints match but those of a head, and of which some
comparisons are true. -/
def besides (head : Head) (comparison : Comparison → Bool) : Request where
  principal c := head.principal ≠ some c
  action s := head.action ≠ some s
  resource c := head.resource ≠ some c
  comparison := comparison

/-- Round trips of documents that do not come back as they were, of one kind
each. -/
def widened : List RoundTrip :=
  let nothing : Comparison → Bool := fun _ => false
  let group (operator : ScopeOperator) : Head := { principal := some ⟨operator, "Group::\"g\""⟩ }
  let photo (operator : ScopeOperator) : Head := { resource := some ⟨operator, "Photo::\"p\""⟩ }
  [ -- a policy that forbids
   { document := ⟨[{ effect := .forbid, head := {}, clauses := [⟨.when, "has(a)"⟩] }]⟩,
     policies := [{ subjects := ["any"], condition := some ⟨"a pr", .deny⟩ }],
     back := permitting {} [⟨.unless, "has(a)"⟩],
     request := besides {} nothing },
   -- operators other than those for the types of their entities
   { document := permitting (group .eq) [],
     policies := [{ subjects := ["Group::\"g\""] }],
     back := permitting (group .in) [],
     request := besides (group .eq) nothing },
   { document := permitting (photo .in) [],
     policies := [{ subjects := ["any"], object := "Photo::\"p\"" }],
     back := permitting (photo .eq) [],
     request := besides (photo .in) nothing },
   -- an entity that is called like a subject
   { document := permitting { principal := some ⟨.eq, "any"⟩ } [],
     policies := [{ subjects := ["any"] }],
     back := permitting {} [],
     request := besides { principal := some ⟨.eq, "any"⟩ } nothing },
   -- an entity of blanks
   { document := permitting { resource := some ⟨.eq, " "⟩ } [],
     policies := [{ subjects := ["any"], object := " " }],
     back := permitting {} [],
     request := besides { resource := some ⟨.eq, " "⟩ } nothing },
   -- a list of one action
   { document := permitting { action := some (.in ["Action::\"a\""]) } [],
     policies := [{ subjects := ["any"], actions := ["a"] }],
     back := permitting { action := some (.eq "Action::\"a\"") } [],
     request := besides { action := some (.in ["Action::\"a\""]) } nothing },
   -- an action whose name is taken for an entity
   { document := permitting { action := some (.eq "Action::\"a::b\"") } [],
     policies := [{ subjects := ["any"], actions := ["a::b"] }],
     back := permitting { action := some (.eq "a::b") } [],
     request := besides { action := some (.eq "Action::\"a::b\"") } nothing },
   -- a name that the map gives to another attribute
   { names := { pairs := [⟨"b", "c"⟩], idql_nodup := by decide, provider_nodup := by decide },
     document := permitting {} [⟨.when, "has(b)"⟩],
     policies := [{ subjects := ["any"], condition := some ⟨"b pr", .allow⟩ }],
     back := permitting {} [⟨.when, "has(c)"⟩],
     request := besides {} (· = .present "c") },
   -- a name of the map that is more than one word
   { names :=
       { pairs := [⟨"x pr or y", "b"⟩], idql_nodup := by decide, provider_nodup := by decide },
     document := permitting {} [⟨.when, "has(b)"⟩],
     policies := [{ subjects := ["any"], condition := some ⟨"x pr or y pr", .allow⟩ }],
     back := permitting {} [⟨.when, "has(x) || has(y)"⟩],
     request := besides {} (· = .present "x") },
   -- a double that is spelled like a string
   { document := permitting {} [⟨.when, "a == 1e309"⟩],
     policies := [{ subjects := ["any"], condition := some ⟨"a eq inf", .allow⟩ }],
     back := permitting {} [⟨.when, "a == \"inf\""⟩],
     request := besides {} (· = .with "a" .eq (.string "inf")) }]

/-- Each of them permits its request only when it comes back. -/
theorem forall_widens_widened : widened.Forall RoundTrip.Widens := by
  refine List.forall_iff_forall_mem.mpr ?_
  decide +kernel

end Cedar

end PolicyDialects
