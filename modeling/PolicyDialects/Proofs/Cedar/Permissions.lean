import PolicyDialects.Proofs.Cedar.ThroughIdql
import PolicyDialects.Proofs.Condition.Settling

/-!
# What exported policies allow

An IDQL policy is about its subjects, and about all of them under the same
condition. Export writes a Cedar policy for each subject, and its clauses say
together what the subject and the condition say.

Results:

* `Mapping.all_holds_subjectScope`: the clause for those who are authenticated.
* `Mapping.holds_clauseOf`: the clause of a condition.
* `Mapping.forall₂_cedarOf`: the Cedar policies of an IDQL policy, subject by
  subject.
-/

namespace PolicyDialects.Cedar

open Idql (Subject)
open PolicyDialects.Condition (exported_of_filterOfCel filterOfCel parse_of_celOfFilter)
open PolicyDialects.Filter (Comparison Expression IsAttributePath)

section

variable {m : Mapping} {r : Request}

/-- The clauses of a subject ask for authentication exactly if the subject
does. -/
theorem Mapping.all_holds_subjectScope (m : Mapping) (subject : String) (r : Request) :
    (m.subjectScope subject).2.all (·.holds r) = true ↔
      (Subject.classify m.containerTypes subject = .anyAuthenticated →
        authenticated.holds r.truth = true) := by
  unfold Mapping.subjectScope
  cases Subject.classify m.containerTypes subject <;> simp [holds_authenticated]

/-- Every condition is one that import can make. -/
theorem conditionOf_rule (c : Idql.Condition) :
    conditionOf c.rule (decide (c.action = .deny)) = c := by
  obtain ⟨rule, action⟩ := c
  cases action <;> rfl

/-- The paths of a rule are dotted names. -/
def HasAttributePaths (rule : String) : Prop :=
  Yields (Expression.Each (fun _ => True) fun c => IsAttributePath c.path) (Expression.parse rule)

instance (rule : String) : Decidable (HasAttributePaths rule) :=
  inferInstanceAs (Decidable (Yields _ _))

/-- The clause of a condition holds exactly if the condition lets the request
through. -/
theorem Mapping.holds_clauseOf (hnames : m.names = .identity) {c : Idql.Condition}
    {clause : Clause} (h : m.clauseOf c = .ok clause) (hpaths : HasAttributePaths c.rule)
    {e : Expression} (he : filterOfCel .identity clause.body = .ok e) (r : Request) :
    clause.holds r = true ↔ c.value? r.truth = some true := by
  obtain ⟨rule, deny, rfl⟩ : ∃ rule deny, c = conditionOf rule deny :=
    ⟨_, _, (conditionOf_rule c).symm⟩
  obtain ⟨body, hbody, rfl⟩ := m.clauseOf_eq_ok h
  rw [hnames] at hbody
  obtain ⟨f, hread, htext⟩ := parse_of_celOfFilter hbody
  obtain ⟨hexportable, hparse, -⟩ := exported_of_filterOfCel hread (hpaths f hread) htext he
  have hkind : decide ((if deny then ClauseKind.unless else .when) = .unless) = deny := by
    cases deny <;> rfl
  rw [value?_of_parse hread, Clause.holds_of_celTree (Expression.isExportable_written hexportable)
    hparse, Expression.holds_written, hkind, Option.some.injEq]

/-- Export gives one `permit` policy for each subject, with the slots of the
policy. If its clauses can be imported, they all hold exactly if the request is
authenticated, where the subject asks for that, and the condition lets it
through. -/
theorem Mapping.forall₂_cedarOf (hnames : m.names = .identity) {p : Idql.Policy}
    {qs : List Policy} (h : m.cedarOf p = .ok qs)
    (hpaths : ∀ c ∈ p.condition, HasAttributePaths c.rule) :
    List.Forall₂ (fun subject q =>
      q.effect = .permit ∧
      q.head = { principal := (m.subjectScope subject).1, action := actionScope p.actions,
                 resource := m.objectScope p.object } ∧
      ((∀ c ∈ q.clauses, ∃ e, filterOfCel .identity c.body = .ok e) → ∀ r : Request,
        (q.clauses.all (·.holds r) = true ↔
          (Subject.classify m.containerTypes subject = .anyAuthenticated →
            authenticated.holds r.truth = true) ∧
          ∀ c ∈ p.condition, c.value? r.truth = some true))) (subjectsOf p) qs := by
  obtain ⟨condition, hcondition, h⟩ := bind_eq_ok.mp h
  obtain rfl := Except.ok.inj h
  refine List.forall₂_map_right_iff.mpr (List.forall₂_same.mpr fun subject _ => ?_)
  refine ⟨rfl, rfl, fun haccepts r => ?_⟩
  rw [List.all_append, Bool.and_eq_true, m.all_holds_subjectScope]
  refine and_congr_right fun _ => ?_
  cases hc : p.condition with
  | none =>
    rw [hc] at hcondition
    obtain rfl := Except.ok.inj hcondition
    simp
  | some c =>
    rw [hc] at hcondition
    obtain ⟨clause, hclause, rfl⟩ := map_eq_ok.mp hcondition
    obtain ⟨e, he⟩ := haccepts clause (List.mem_append_right _ List.mem_cons_self)
    have hholds := m.holds_clauseOf hnames hclause (hpaths c hc) he r
    simpa using hholds

end

/-- A policy for everyone who is authenticated and for a user, with a denial. -/
def denying : Idql.Policy where
  subjects := ["jwt:issuer", " User::\"u\" "]
  actions := ["read", "write"]
  object := "Folder::\"f\""
  condition := some ⟨"a.b eq 1 and (c pr or d pr)", .deny⟩

/-- Its Cedar policy for a principal, with the clauses that the subject needs. -/
def denyingPolicy (principal : Option Scope) (asked : List Clause) : Policy where
  effect := .permit
  head :=
    { principal,
      action := some (.in ["Action::\"read\"", "Action::\"write\""]),
      resource := some ⟨.in, "Folder::\"f\""⟩ }
  clauses := asked ++ [⟨.unless, "a.b == 1 && (has(c) || has(d))"⟩]

theorem forall₂_cedarOf_denying :
    Mapping.cedarOf {} denying =
        .ok [denyingPolicy none [⟨.when, authenticatedBody⟩],
          denyingPolicy (some ⟨.eq, "User::\"u\""⟩) []] ∧
      (∀ c ∈ denying.condition, HasAttributePaths c.rule) ∧
      ∀ r : Request,
        ((denyingPolicy none [⟨.when, authenticatedBody⟩]).clauses.all (·.holds r) = true ↔
          authenticated.holds r.truth = true ∧
          ∀ c ∈ denying.condition, c.value? r.truth = some true) := by
  have hexport : Mapping.cedarOf {} denying =
      .ok [denyingPolicy none [⟨.when, authenticatedBody⟩],
        denyingPolicy (some ⟨.eq, "User::\"u\""⟩) []] := by decide +kernel
  have hpaths : ∀ c ∈ denying.condition, HasAttributePaths c.rule := by decide +kernel
  have haccepts : ∀ c ∈ (denyingPolicy none [⟨.when, authenticatedBody⟩]).clauses,
      ∃ e, filterOfCel .identity c.body = .ok e := by
    refine List.forall_mem_cons.mpr ⟨⟨authenticated, by decide +kernel⟩, ?_⟩
    refine List.forall_mem_singleton.mpr ⟨.and (.compare (.with "a.b" .eq (.integer 1)))
      (.group (.or (.compare (.present "c")) (.compare (.present "d")))), by decide +kernel⟩
  have hscheme : Subject.classify Idql.defaultContainerTypes "jwt:issuer" = .anyAuthenticated := by
    decide
  obtain ⟨⟨-, -, hfirst⟩, -⟩ :=
    List.forall₂_cons.mp (Mapping.forall₂_cedarOf (m := {}) rfl hexport hpaths)
  refine ⟨hexport, hpaths, fun r => (hfirst haccepts r).trans (and_congr_left' ?_)⟩
  exact ⟨fun h => h hscheme, fun h _ => h⟩

end PolicyDialects.Cedar
