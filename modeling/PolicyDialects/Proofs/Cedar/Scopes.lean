import PolicyDialects.Proofs.Cedar.EntityLiterals
import PolicyDialects.Proofs.Cedar.Recovery

/-!
# Principals and resources through IDQL

Import keeps the entity of a constraint and drops its operator. Export drops the
blanks around the entity, finds an operator by its type, and leaves the slot open
for a text that stands for everyone.

* `StandsForEveryone` — the principals that leave their slot open.
* `Mapping.ComesBack` — what becomes of a slot.

Results:

* `Mapping.comesBack_resource`, `Mapping.comesBack_principal`: the two slots.
* `Mapping.scopes_throughIdql`: one policy comes back, with the slots found again.
* `scopes_changed`: the operators may be others.
-/

namespace PolicyDialects.Cedar

open Idql (EntityKind Subject)
open Text

/-- The text is no entity to export, but stands for everyone, or everyone who is
authenticated. -/
def StandsForEveryone (entity : String) : Prop :=
  entity.isEmpty = true ∨ sameFold entity Subject.anyName = true ∨
    sameFold entity Subject.anyAuthenticatedName = true ∨ Subject.isScheme entity = true

instance : DecidablePred StandsForEveryone := fun _ =>
  inferInstanceAs (Decidable (_ ∨ _ ∨ _ ∨ _))

/-- An entity `Path::"id"` that is taken for an authentication scheme, because the
first name of its path is called like one. -/
def IsMistaken (entity : String) : Prop :=
  ∃ e : EntityLiteral, entity = e.text ∧ e.hasSchemeRoot = true

theorem IsMistaken.isScheme {entity : String} (h : IsMistaken entity) :
    Subject.isScheme entity = true := by
  obtain ⟨e, rfl, hroot⟩ := h
  rw [e.isScheme_text, hroot]

/-- The constraint to a slot comes back with its entity and the operator that
export finds for it, unless the entity leaves the slot open. -/
structure Mapping.ComesBack (m : Mapping) (leavesOpen : String → Prop) (o o' : Option Scope) :
    Prop where
  isSome_iff : o'.isSome = true ↔ ∃ c ∈ o, ¬ leavesOpen (trimmed c.entity)
  entity : ∀ c ∈ o, ∀ c' ∈ o', c'.entity = trimmed c.entity
  operator : ∀ c' ∈ o', c'.operator = m.operatorOf c'.entity

section

variable {m : Mapping}

/-- The slot comes back as it was exactly if its constraint is one that export
finds. -/
theorem Mapping.ComesBack.eq_iff {leavesOpen : String → Prop} {o o' : Option Scope}
    (h : m.ComesBack leavesOpen o o') :
    o' = o ↔ ∀ c ∈ o, ¬ leavesOpen c.entity ∧ trimmed c.entity = c.entity ∧
      c.operator = m.operatorOf c.entity := by
  cases o with
  | none =>
    have hnone : o' = none := by
      rw [← Option.not_isSome_iff_eq_none, h.isSome_iff]
      rintro ⟨c, hc, -⟩
      cases hc
    rw [hnone]
    constructor
    · intro _ c hc
      cases hc
    · intro _
      rfl
  | some c =>
    constructor
    · rintro rfl d hd
      cases hd
      have hentity := (h.entity c rfl c rfl).symm
      obtain ⟨d, hd, hkept⟩ := h.isSome_iff.mp rfl
      cases hd
      rw [hentity] at hkept
      exact ⟨hkept, hentity, h.operator c rfl⟩
    · intro hfound
      obtain ⟨hkept, hentity, hoperator⟩ := hfound c rfl
      have hsome : o'.isSome = true := h.isSome_iff.mpr ⟨c, rfl, by rwa [hentity]⟩
      obtain ⟨c', rfl⟩ := Option.isSome_iff_exists.mp hsome
      have hentity' : c'.entity = c.entity := (h.entity c rfl c' rfl).trans hentity
      have hoperator' := h.operator c' rfl
      rw [hentity', ← hoperator] at hoperator'
      obtain ⟨operator, entity⟩ := c'
      cases hentity'
      cases hoperator'
      rfl

theorem Mapping.keepsScope_iff {c : Scope} :
    m.KeepsScope c ↔ ¬ c.entity.isEmpty = true ∧ trimmed c.entity = c.entity ∧
      c.operator = m.operatorOf c.entity := by
  rw [Bool.not_eq_true]
  constructor
  · intro h
    exact ⟨h.isEmpty, h.trimmed, h.operator⟩
  · rintro ⟨hempty, htrimmed, hoperator⟩
    exact ⟨htrimmed, hempty, hoperator⟩

theorem Mapping.keepsPrincipal_iff {c : Scope} :
    m.KeepsPrincipal c ↔ ¬ StandsForEveryone c.entity ∧ trimmed c.entity = c.entity ∧
      c.operator = m.operatorOf c.entity := by
  simp only [StandsForEveryone, not_or, Bool.not_eq_true]
  constructor
  · intro h
    exact ⟨⟨h.isEmpty, h.any, h.anyAuthenticated, h.isScheme⟩, h.trimmed, h.operator⟩
  · rintro ⟨⟨hempty, hany, hauthenticated, hscheme⟩, htrimmed, hoperator⟩
    exact ⟨⟨htrimmed, hempty, hoperator⟩, hany, hauthenticated, hscheme⟩

theorem Mapping.comesBack_none (leavesOpen : String → Prop) : m.ComesBack leavesOpen none none where
  isSome_iff := by simp
  entity := by rintro _ ⟨⟩
  operator := by rintro _ ⟨⟩

theorem Mapping.comesBack_open {leavesOpen : String → Prop} {c : Scope}
    (h : leavesOpen (trimmed c.entity)) : m.ComesBack leavesOpen (some c) none where
  isSome_iff := by simp [h]
  entity := by rintro _ - _ ⟨⟩
  operator := by rintro _ ⟨⟩

theorem Mapping.comesBack_found {leavesOpen : String → Prop} {c : Scope}
    (h : ¬ leavesOpen (trimmed c.entity)) :
    m.ComesBack leavesOpen (some c) (some ⟨m.operatorOf (trimmed c.entity), trimmed c.entity⟩) where
  isSome_iff := by simp [h]
  entity := by
    rintro _ ⟨⟩ _ ⟨⟩
    rfl
  operator := by
    rintro _ ⟨⟩
    rfl

/-! ## The two slots -/

theorem Mapping.comesBack_resource (m : Mapping) (o : Option Scope) :
    m.ComesBack (·.isEmpty = true) o (m.objectScope ((o.map (·.entity)).getD "")) := by
  cases o with
  | none => exact m.comesBack_none _
  | some c =>
    rw [Option.map_some, Option.getD_some, m.objectScope_eq]
    by_cases hopen : (trimmed c.entity).isEmpty = true
    · rw [if_pos hopen]
      exact m.comesBack_open hopen
    · rw [if_neg hopen]
      exact m.comesBack_found hopen

theorem Mapping.comesBack_subject (m : Mapping) (c : Scope) :
    m.ComesBack StandsForEveryone (some c) (m.subjectScope c.entity).1 := by
  rw [m.subjectScope_eq]
  split_ifs with hany hauthenticated
  · rw [Bool.or_eq_true] at hany
    apply m.comesBack_open
    exact hany.imp_right .inl
  · rw [Bool.or_eq_true] at hauthenticated
    apply m.comesBack_open
    exact .inr (.inr hauthenticated)
  · rw [Bool.or_eq_true] at hany hauthenticated
    apply m.comesBack_found
    rintro (hempty | hname | hentity)
    · exact hany (.inl hempty)
    · exact hany (.inr hname)
    · exact hauthenticated hentity

/-- The principal comes back from the subject that was made of it. -/
theorem Mapping.comesBack_principal {c : Policy} {subject : String} {clauses : List Clause}
    (h : subjectOf c = .ok (subject, clauses)) :
    m.ComesBack StandsForEveryone c.head.principal (m.subjectScope subject).1 := by
  rcases subjectOf_cases h with ⟨s, hprincipal, rfl, -⟩ | ⟨hprincipal, rfl, -⟩ |
      ⟨hprincipal, rfl, -⟩ <;>
    rw [hprincipal]
  · exact m.comesBack_subject s
  · exact m.comesBack_none _
  · exact m.comesBack_none _

/-- A policy comes back from IDQL as one policy. Its resource, and its principal
unless that is an entity taken for an authentication scheme, are constrained
exactly as before, if export finds the constraint by its entity. -/
theorem Mapping.scopes_throughIdql {c : Policy} {p : Idql.Policy} {qs : List Policy}
    (himport : m.policyOf c = .ok p) (hexport : m.cedarOf p = .ok qs) :
    ∃ q, qs = [q] ∧
      m.ComesBack (·.isEmpty = true) c.head.resource q.head.resource ∧
      (q.head.resource = c.head.resource ↔ ∀ s ∈ c.head.resource, m.KeepsScope s) ∧
      ((∀ s ∈ c.head.principal, ¬ IsMistaken (trimmed s.entity)) →
        m.ComesBack StandsForEveryone c.head.principal q.head.principal ∧
        (q.head.principal = c.head.principal ↔ ∀ s ∈ c.head.principal, m.KeepsPrincipal s)) := by
  obtain ⟨⟨subject, clauses⟩, hsubject, h⟩ := bind_eq_ok.mp himport
  obtain ⟨condition, -, h⟩ := bind_eq_ok.mp h
  cases h
  obtain ⟨clause, -, rfl⟩ := m.cedarOf_eq_ok.mp hexport
  have hresource := m.comesBack_resource c.head.resource
  have hprincipal := m.comesBack_principal hsubject
  refine ⟨_, rfl, ?_⟩
  rw [m.resource_cedarPolicy, m.principal_cedarPolicy]
  refine ⟨hresource, ?_, fun _ => ⟨hprincipal, ?_⟩⟩
  · simp only [m.keepsScope_iff]
    exact hresource.eq_iff
  · simp only [m.keepsPrincipal_iff]
    exact hprincipal.eq_iff

end

/-- A policy for members of a group, with a blank behind its resource that Cedar text
takes for a part of the entity. -/
def spacedScopes : Policy where
  effect := .permit
  head :=
    { principal := some ⟨.in, "Ns::Group::\"jwt:a\""⟩,
      resource := some ⟨.in, "Doc::\"d\"\u00a0"⟩ }

/-- What it comes back as through IDQL. -/
def spacedScopesBack : Policy where
  effect := .permit
  head :=
    { principal := some ⟨.in, "Ns::Group::\"jwt:a\""⟩,
      resource := some ⟨.eq, "Doc::\"d\""⟩ }

theorem scopes_throughIdql_spaced :
    let p : Idql.Policy :=
      { subjects := ["Ns::Group::\"jwt:a\""], object := "Doc::\"d\"\u00a0" }
    Mapping.policyOf {} spacedScopes = .ok p ∧ Mapping.cedarOf {} p = .ok [spacedScopesBack] ∧
      (∀ s ∈ spacedScopes.head.principal, ¬ IsMistaken (trimmed s.entity)) ∧
      Mapping.ComesBack {} (·.isEmpty = true) spacedScopes.head.resource
        spacedScopesBack.head.resource ∧
      (∀ s ∈ spacedScopes.head.principal, Mapping.KeepsPrincipal {} s) := by
  intro p
  have himport : Mapping.policyOf {} spacedScopes = .ok p := by decide +kernel
  have hexport : Mapping.cedarOf {} p = .ok [spacedScopesBack] := by decide +kernel
  have hentity : ∀ s ∈ spacedScopes.head.principal, ¬ IsMistaken (trimmed s.entity) := by
    rintro s ⟨⟩ hmistaken
    exact absurd hmistaken.isScheme (by decide)
  obtain ⟨q, hq, hresource, -, hprincipal⟩ :=
    Mapping.scopes_throughIdql himport hexport
  obtain ⟨rfl, -⟩ := List.cons.inj hq
  exact ⟨himport, hexport, hentity, hresource, (hprincipal hentity).2.mp rfl⟩

/-- A policy for a group and on a document, with the given operators. -/
def groupOnDocument (principal resource : ScopeOperator) : Policy where
  effect := .permit
  head :=
    { principal := some ⟨principal, "Group::\"g\""⟩,
      resource := some ⟨resource, "Doc::\"d\""⟩ }

/-- A group and a document that come back with the other operator. -/
theorem scopes_changed :
    Document.parse "permit(principal == Group::\"g\", action, resource in Doc::\"d\");" =
        .ok ⟨[groupOnDocument .eq .in]⟩ ∧
      ∃ p, Mapping.policyOf {} (groupOnDocument .eq .in) = .ok p ∧
        Mapping.cedarOf {} p = .ok [groupOnDocument .in .eq] ∧
        (groupOnDocument .in .eq).head.principal ≠ (groupOnDocument .eq .in).head.principal ∧
        (groupOnDocument .in .eq).head.resource ≠ (groupOnDocument .eq .in).head.resource := by
  refine ⟨?_, { subjects := ["Group::\"g\""], object := "Doc::\"d\"" }, ?_, ?_, ?_, ?_⟩
  · decide +kernel
  · decide +kernel
  · decide +kernel
  · decide
  · decide

end PolicyDialects.Cedar
