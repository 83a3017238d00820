import PolicyDialects.Cedar.Mapping
import PolicyDialects.Cedar.Meaning
import PolicyDialects.Idql.Meaning
import PolicyDialects.Proofs.Cel.Grammar
import PolicyDialects.Proofs.Condition.Export
import PolicyDialects.Proofs.Filter.RoundTrip

/-!
# The clauses of a policy as one condition

A single clause becomes the text of its filter and keeps its own polarity;
several become the text of a conjunction. Either way the condition is true when
all clauses hold, and the effect decides what follows from that.

Results:

* `Mapping.fold_eq_ok`: the expression behind the text of a folded condition.
* `Mapping.value?_fold`: what a folded condition, printed and read again, lets
  through.
-/

namespace PolicyDialects.Filter.Expression

variable {p : Comparison → Prop}

/-- An operand of `and` that needs no parentheses: comparisons with a property,
no value filters, and no `or` outside of parentheses. -/
structure IsConjunct (p : Comparison → Prop) (e : Expression) : Prop where
  parts : e.Each (fun _ => False) p
  orsApart : e.OrsApart
  isOr : e.isOr = false

theorem IsConjunct.foldl_and {first : Expression} (hfirst : IsConjunct p first)
    {others : List Expression} (hothers : ∀ e ∈ others, IsConjunct p e) :
    IsConjunct p (others.foldl .and first) := by
  induction others generalizing first with
  | nil => exact hfirst
  | cons e others ih =>
    obtain ⟨he, hothers⟩ := List.forall_mem_cons.mp hothers
    refine ih ⟨⟨hfirst.parts, he.parts⟩, ?_, rfl⟩ hothers
    exact ⟨fun _ => ⟨hfirst.isOr, he.isOr⟩, hfirst.orsApart, he.orsApart⟩

theorem holds_foldl_and (truth : List String → Comparison → Bool) (first : Expression)
    (others : List Expression) :
    (others.foldl .and first).holds truth =
      (first.holds truth && others.all (·.holds truth)) := by
  induction others generalizing first with
  | nil => rw [List.foldl_nil, List.all_nil, Bool.and_true]
  | cons e others ih => rw [List.foldl_cons, ih, List.all_cons, ← Bool.and_assoc]; rfl

end PolicyDialects.Filter.Expression

namespace PolicyDialects.Cedar

open Cel (Tree)
open PolicyDialects.Condition (filterOfCel)
open PolicyDialects.Filter (Comparison Expression)

/-! ## Clauses and their filters -/

/-- The filter is made of comparisons with a property and can be printed, and it
is true when the body of the clause is. -/
structure Clause.Mirrors (p : Comparison → Prop) (truth : List String → Comparison → Bool)
    (r : Request) (c : Clause) (e : Expression) : Prop where
  parts : e.Each (fun _ => False) p
  orsApart : e.OrsApart
  holds_eq : c.holds r = (e.holds truth != decide (c.kind = .unless))

/-- A clause holds when the filter of its body does, or for `unless` does
not. -/
theorem Clause.holds_of_imports {c : Clause} {r : Request} {t : Tree} {u : Bool} {e : Expression}
    (hparse : Tree.parse c.body = .ok t) (h : Tree.Imports u t e)
    (truth : List String → Comparison → Bool) (htruth : truth [] = r.comparison) :
    c.holds r = (e.holds truth != decide (c.kind = .unless)) := by
  unfold Clause.holds
  rw [hparse, ← htruth]
  dsimp only
  rw [h.truth?_eq truth]
  cases c.kind with
  | when => exact (Bool.bne_false _).symm
  | «unless» => exact (Bool.bne_true _).symm

section

variable {m : Mapping} {p : Comparison → Prop} {truth : List String → Comparison → Bool}
  {r : Request}

theorem Mapping.operand_eq_ok {c : Clause} {e : Expression} (h : m.operand c = .ok e)
    (hc : Yields (c.Mirrors p truth r) (filterOfCel m.names c.body)) :
    Expression.IsConjunct p e ∧ e.holds truth = c.holds r := by
  obtain ⟨body, hbody, h⟩ := bind_eq_ok.mp h
  obtain ⟨hparts, hors, hholds⟩ := hc body hbody
  rw [hholds]
  cases hkind : c.kind with
  | «unless» =>
    rw [hkind] at h
    cases h
    exact ⟨⟨hparts, hors, rfl⟩, (Bool.bne_true _).symm⟩
  | when =>
    rw [hkind] at h
    obtain rfl := Except.ok.inj h
    cases hor : body.isOr with
    | true => exact ⟨⟨hparts, hors, rfl⟩, (Bool.bne_false _).symm⟩
    | false => exact ⟨⟨hparts, hors, hor⟩, (Bool.bne_false _).symm⟩

theorem Mapping.operands_eq_ok {clauses : List Clause} {es : List Expression}
    (h : List.Forall₂ (fun c e => m.operand c = .ok e) clauses es)
    (hclauses : ∀ c ∈ clauses, Yields (c.Mirrors p truth r) (filterOfCel m.names c.body)) :
    (∀ e ∈ es, Expression.IsConjunct p e) ∧
      es.all (·.holds truth) = clauses.all (·.holds r) := by
  induction h with
  | nil => exact ⟨List.forall_mem_nil _, rfl⟩
  | cons he _ ih =>
    obtain ⟨hc, hclauses⟩ := List.forall_mem_cons.mp hclauses
    obtain ⟨hconjunct, hholds⟩ := m.operand_eq_ok he hc
    obtain ⟨hconjuncts, hall⟩ := ih hclauses
    exact ⟨List.forall_mem_cons.mpr ⟨hconjunct, hconjuncts⟩, by
      rw [List.all_cons, List.all_cons, hholds, hall]⟩

/-- The condition of clauses is the text of an expression, which is true when
all clauses hold. -/
theorem Mapping.fold_eq_ok {effect : Effect} {clauses : List Clause} {condition : Idql.Condition}
    (h : m.fold effect clauses = .ok (some condition))
    (hclauses : ∀ c ∈ clauses, Yields (c.Mirrors p truth r) (filterOfCel m.names c.body)) :
    ∃ (e : Expression) (deny : Bool), condition = conditionOf e.text deny ∧
      e.Each (fun _ => False) p ∧ e.OrsApart ∧
      (e.holds truth != deny) =
        (clauses.all (·.holds r) != decide (effect = .forbid)) := by
  match clauses with
  | [] => cases effect <;> cases h
  | [c] =>
    obtain ⟨text, htext, h⟩ := bind_eq_ok.mp h
    obtain ⟨e, he, htext⟩ := bind_eq_ok.mp htext
    obtain ⟨hparts, hors, hholds⟩ := hclauses c List.mem_cons_self e he
    cases htext
    cases h
    refine ⟨e, _, rfl, hparts, hors, ?_⟩
    rw [List.all_cons, List.all_nil, Bool.and_true, hholds, Bool.bne_assoc,
      bne_comm (a := decide (effect = .forbid))]
  | c :: c' :: rest =>
    obtain ⟨first, hfirst, h⟩ := bind_eq_ok.mp h
    obtain ⟨others, hothers, h⟩ := bind_eq_ok.mp h
    cases h
    have hall := m.operands_eq_ok (.cons hfirst (mapM_eq_ok.mp hothers)) hclauses
    obtain ⟨hconjunct, hconjuncts⟩ := List.forall_mem_cons.mp hall.1
    obtain ⟨hparts, hors, -⟩ := hconjunct.foldl_and hconjuncts
    refine ⟨_, _, rfl, hparts, hors, ?_⟩
    rw [Expression.holds_foldl_and, ← hall.2, List.all_cons]

end

/-! ## Printed and read again -/

/-- A rule that is read lets through what it says. -/
theorem value?_of_parse {rule : String} {f : Expression} (h : Expression.parse rule = .ok f)
    (deny : Bool) (truth : List String → Comparison → Bool) :
    (conditionOf rule deny).value? truth = some (f.holds truth != deny) := by
  unfold Idql.Condition.value? conditionOf
  dsimp only
  rw [h]
  cases deny with
  | false => exact congrArg some (Bool.bne_false _).symm
  | true => exact congrArg some (Bool.bne_true _).symm

/-- A printed rule lets through what it says, if it can be read at all. -/
theorem value?_conditionOf {e f : Expression} {deny : Bool} (hlexical : e.IsLexical)
    (hors : e.OrsApart) (hread : Expression.parse e.text = .ok f)
    (truth : List String → Comparison → Bool) :
    (conditionOf e.text deny).value? truth = some (e.holds truth != deny) := by
  obtain ⟨-, rfl⟩ := (Expression.parse_text hlexical hors).eq_of_ok hread
  rw [value?_of_parse hread, Expression.holds_canonical]

/-- The body of a clause is a condition with a filter, its doubles finite. -/
def Clause.IsCondition (c : Clause) : Prop :=
  ∃ t e, Tree.parse c.body = .ok t ∧ t.FloatsFinite ∧ t.toFilter .identity = .ok e

theorem Clause.IsCondition.mirrors {c : Clause} (h : c.IsCondition)
    (truth : List String → Comparison → Bool) (r : Request) :
    Yields (c.Mirrors Comparison.IsLexical truth { r with comparison := truth [] })
      (filterOfCel .identity c.body) := by
  obtain ⟨t, e, hparse, hfinite, he⟩ := h
  have himports := (Tree.imports_of_toFilterAt he).1
  intro e' he'
  unfold filterOfCel at he'
  rw [hparse] at he'
  obtain rfl : e = e' := Except.ok.inj (he.symm.trans he')
  exact ⟨himports.each_isLexical (Cel.named_of_parse hparse) hfinite,
    himports.orsApart, c.holds_of_imports hparse himports truth rfl⟩

theorem Clause.IsCondition.filterOfCel_eq_ok {c : Clause} (h : c.IsCondition) :
    ∃ e, filterOfCel .identity c.body = .ok e := by
  obtain ⟨t, e, hparse, -, he⟩ := h
  refine ⟨e, ?_⟩
  unfold filterOfCel
  rw [hparse]
  exact he

/-- Clauses that are conditions fold into one. -/
theorem Mapping.exists_fold_eq_ok {m : Mapping} (hnames : m.names = .identity) (effect : Effect)
    {clauses : List Clause} (hne : clauses ≠ []) (h : ∀ c ∈ clauses, c.IsCondition) :
    ∃ condition, m.fold effect clauses = .ok (some condition) := by
  have hoperand : ∀ c ∈ clauses, ∃ e, m.operand c = .ok e := by
    intro c hc
    obtain ⟨e, he⟩ := (h c hc).filterOfCel_eq_ok
    rw [← hnames] at he
    exact ⟨_, bind_eq_ok.mpr ⟨e, he, rfl⟩⟩
  match clauses with
  | [] => exact absurd rfl hne
  | [c] =>
    obtain ⟨e, he⟩ := (h c List.mem_cons_self).filterOfCel_eq_ok
    rw [← hnames] at he
    exact ⟨_, bind_eq_ok.mpr ⟨e.text, bind_eq_ok.mpr ⟨e, he, rfl⟩, rfl⟩⟩
  | c :: c' :: rest =>
    obtain ⟨hfirst, hrest⟩ := List.forall_mem_cons.mp hoperand
    obtain ⟨first, hfirst⟩ := hfirst
    obtain ⟨others, hothers⟩ := exists_mapM_eq_ok hrest
    exact ⟨_, bind_eq_ok.mpr ⟨first, hfirst, bind_eq_ok.mpr ⟨others, hothers, rfl⟩⟩⟩

/-- A policy without clauses has no condition if it permits, and cannot be
imported if it forbids. Clauses that are conditions fold into one that lets
through, when its rule can be read, exactly what all of them hold for, or, for a
policy that forbids, exactly the rest. -/
theorem Mapping.value?_fold {m : Mapping} (hnames : m.names = .identity) :
    (m.fold .permit [] = .ok none ∧ ∃ error, m.fold .forbid [] = .error error) ∧
      ∀ effect clauses, clauses ≠ [] → (∀ c ∈ clauses, c.IsCondition) →
        ∃ condition, m.fold effect clauses = .ok (some condition) ∧
          ∀ rule, Expression.parse condition.rule = .ok rule →
            ∀ (truth : List String → Comparison → Bool) (r : Request),
              condition.value? truth =
                some (clauses.all (Clause.holds { r with comparison := truth [] }) !=
                  decide (effect = .forbid)) := by
  refine ⟨⟨rfl, _, rfl⟩, fun effect clauses hne hclauses => ?_⟩
  obtain ⟨condition, hfold⟩ := m.exists_fold_eq_ok hnames effect hne hclauses
  refine ⟨condition, hfold, fun rule hread truth r => ?_⟩
  have hmirrors : ∀ c ∈ clauses, Yields
      (c.Mirrors Comparison.IsLexical truth { r with comparison := truth [] })
      (filterOfCel m.names c.body) := by
    rw [hnames]
    exact fun c hc => (hclauses c hc).mirrors truth r
  obtain ⟨e, deny, rfl, hparts, hors, hholds⟩ := m.fold_eq_ok hfold hmirrors
  have hlexical : e.IsLexical := hparts.imp (fun _ => False.elim) fun _ hc => hc
  rw [value?_conditionOf hlexical hors hread truth, hholds]

/-- `when { a == 1 || b == 2 } unless { has(c) }`. -/
def mixedClauses : List Clause := [⟨.when, "a == 1 || b == 2"⟩, ⟨.unless, "has(c)"⟩]

/-- `(a eq 1 or b eq 2) and not(c pr)`. -/
def mixedRule : Expression :=
  .and (.group (.or (.compare (.with "a" .eq (.integer 1))) (.compare (.with "b" .eq (.integer 2)))))
    (.not (.group (.compare (.present "c"))))

theorem value?_fold_mixedClauses :
    (∀ c ∈ mixedClauses, c.IsCondition) ∧
      Mapping.fold {} .forbid mixedClauses = .ok (some ⟨mixedRule.text, .deny⟩) ∧
      Expression.parse mixedRule.text = .ok mixedRule ∧
      ∀ (truth : List String → Comparison → Bool) (r : Request),
        Idql.Condition.value? truth ⟨mixedRule.text, .deny⟩ =
          some (mixedClauses.all (Clause.holds { r with comparison := truth [] }) != true) := by
  let either : Expression :=
    .or (.compare (.with "a" .eq (.integer 1))) (.compare (.with "b" .eq (.integer 2)))
  let present : Expression := .compare (.present "c")
  have heither : Tree.parse "a == 1 || b == 2" = .ok either.celTree :=
    Expression.parse_celText (e := either) (by decide) ⟨trivial, trivial⟩ ⟨rfl, trivial, trivial⟩
  have hpresent : Tree.parse "has(c)" = .ok present.celTree :=
    Expression.parse_celText (e := present) (by decide) trivial trivial
  have hclauses : ∀ c ∈ mixedClauses, c.IsCondition := by
    refine List.forall_mem_cons.mpr ⟨?_, List.forall_mem_singleton.mpr ?_⟩
    · exact ⟨_, either, heither, .or (.relation (.ident trivial) (.constant trivial))
        (.relation (.ident trivial) (.constant trivial)), rfl⟩
    · exact ⟨_, present, hpresent,
        .call trivial (List.forall_mem_singleton.mpr (.ident trivial)), rfl⟩
  have hfold : Mapping.fold {} .forbid mixedClauses = .ok (some ⟨mixedRule.text, .deny⟩) := by
    have hfirst : Mapping.operand {} ⟨.when, "a == 1 || b == 2"⟩ = .ok (.group either) :=
      bind_eq_ok.mpr ⟨either, bind_eq_ok.mpr ⟨_, heither, rfl⟩, rfl⟩
    have hsecond : Mapping.operand {} ⟨.unless, "has(c)"⟩ = .ok (.not present) :=
      bind_eq_ok.mpr ⟨present, bind_eq_ok.mpr ⟨_, hpresent, rfl⟩, rfl⟩
    exact bind_eq_ok.mpr ⟨_, hfirst, bind_eq_ok.mpr ⟨_, mapM_eq_ok.mpr (.cons hsecond .nil), rfl⟩⟩
  have hread : Expression.parse mixedRule.text = .ok mixedRule :=
    Expression.parse_text_of_isPrintable (e := mixedRule) (by decide) (by decide) (by decide)
  refine ⟨hclauses, hfold, hread, fun truth r => ?_⟩
  obtain ⟨condition, hfold', hvalue⟩ :=
    (Mapping.value?_fold (m := {}) rfl).2 .forbid mixedClauses (List.cons_ne_nil _ _) hclauses
  obtain rfl := Option.some.inj (Except.ok.inj (hfold.symm.trans hfold'))
  exact hvalue mixedRule hread truth r

end PolicyDialects.Cedar
