import PolicyDialects.Proofs.Condition.Import
import PolicyDialects.Proofs.Filter.Stability

/-!
# Imported conditions that can be read as filters

Import makes a filter of every comparison with a constant, and prints it. The
reader of filters knows keywords and bounds of its own.

Results:

* `parse_filterTextOfCel_iff`: the printed filter is read exactly if its
  canonical form keeps the bounds of the reader, as long as no attribute is
  named like a keyword and lists stand only after `in`.
* `filterTextOfCel_unread`: without these conditions it may be refused.
-/

namespace PolicyDialects.Condition

open Cel (Tree)
open PolicyDialects.Filter (Comparison Expression maxNesting)
open PolicyDialects.Filter.Expression (negations enclosed_negations depth_negations)

theorem parse_of_filterOfCel {cel : String} {e : Expression}
    (h : filterOfCel .identity cel = .ok e) :
    ∃ t, Tree.parse cel = .ok t ∧ Tree.Imports false t e := by
  obtain ⟨t, hparse, he⟩ := bind_eq_ok.mp h
  exact ⟨t, hparse, (Tree.imports_of_toFilterAt he).1⟩

/-- The filter text of a CEL condition is read again exactly if its canonical
form keeps the bounds of the reader. A double need not be finite. -/
theorem parse_filterTextOfCel_iff {cel text : String}
    (h : filterTextOfCel .identity cel = .ok text) :
    ∃ e, filterOfCel .identity cel = .ok e ∧ e.text = text ∧
      (e.IsLegible → ((∃ f, Expression.parse text = .ok f) ↔
        e.canonical.nesting < maxNesting ∧ e.canonical.depth ≤ Expression.maxDepth)) := by
  obtain ⟨e, he, htext⟩ := bind_eq_ok.mp h
  obtain rfl : e.text = text := Except.ok.inj htext
  obtain ⟨t, hparse, himports⟩ := parse_of_filterOfCel he
  have hwell : e.IsWellFormed := himports.isWellFormed (Cel.named_of_parse hparse)
  refine ⟨e, he, rfl, fun hlegible => ?_⟩
  constructor
  · rintro ⟨f, hf⟩
    exact ((Expression.parse_text_eq_ok_iff hwell hlegible himports.orsApart).mp hf).2
  · intro hbounds
    exact ⟨_, (Expression.parse_text_eq_ok_iff hwell hlegible himports.orsApart).mpr ⟨rfl, hbounds⟩⟩

theorem parse_filterTextOfCel_grouped :
    filterTextOfCel .identity "!has(a) && (b == 1e999 || has(c))" =
        .ok "not(a pr) and (b eq inf or c pr)" ∧
      ∃ f, Expression.parse "not(a pr) and (b eq inf or c pr)" = .ok f := by
  have htext : filterTextOfCel .identity "!has(a) && (b == 1e999 || has(c))" =
      .ok "not(a pr) and (b eq inf or c pr)" := by decide +kernel
  obtain ⟨e, he, -, hread⟩ := parse_filterTextOfCel_iff htext
  have hgrouped : e = .and (.not (.compare (.present "a"))) (.group
      (.or (.compare (.with "b" .eq (.float (.infinite false)))) (.compare (.present "c")))) :=
    Except.ok.inj (he.symm.trans (by decide +kernel))
  subst hgrouped
  exact ⟨htext, (hread (by decide)).mpr (by decide)⟩

/-- A text that export writes is imported as what its tree becomes. -/
theorem filterOfCel_celText {e f : Expression} (he : e.IsExportable) (hnots : e.NotsSpelled)
    (hg : e.IsGrammatical) (himports : Tree.Imports false e.celTree f)
    (hlevels : e.celTree.levels ≤ Expression.maxDepth) :
    filterOfCel .identity e.celText = .ok f := by
  refine bind_eq_ok.mpr ⟨_, Expression.parse_celText he hnots hg, ?_⟩
  exact Tree.toFilterAt_eq_ok_iff.mpr ⟨himports, by omega⟩

/-! ## Negations with parentheses -/

/-- `!(` in front of `has(a)`, a number of times, and the parentheses that close
it. -/
def bangs : Nat → String
  | 0 => "has(a)"
  | n + 1 => "!" ++ ("(" ++ bangs n ++ ")")

theorem isExportable_negations (n : Nat) : (negations n).enclosed.IsExportable := by
  induction n with
  | zero => decide
  | succ n ih => rw [enclosed_negations]; exact ih

theorem notsSpelled_negations (n : Nat) : (negations n).enclosed.NotsSpelled := by
  induction n with
  | zero => trivial
  | succ n ih => rw [enclosed_negations]; exact ⟨rfl, ih⟩

theorem isGrammatical_negations (n : Nat) : (negations n).IsGrammatical := by
  induction n with
  | zero => trivial
  | succ n ih =>
    refine ⟨?_, ih⟩
    cases n <;> rfl

theorem celText_negations (n : Nat) : (negations n).enclosed.celText = bangs n := by
  induction n with
  | zero => rfl
  | succ n ih =>
    rw [enclosed_negations, bangs, ← ih]
    rfl

theorem imports_negations (n : Nat) : Tree.Imports false (negations n).enclosed.celTree (negations n) ∧
    (negations n).enclosed.celTree.levels = n + 1 := by
  induction n with
  | zero => exact ⟨.compare rfl, rfl⟩
  | succ n ih =>
    rw [enclosed_negations]
    exact ⟨.not ih.1, congrArg (· + 1) ih.2⟩

/-- Import reads the negations that the filter reader may not. -/
theorem filterTextOfCel_bangs {n : Nat} (h : n < Expression.maxDepth) :
    filterTextOfCel .identity (bangs n) = .ok (negations n).text := by
  obtain ⟨himports, hlevels⟩ := imports_negations n
  have hfilter := filterOfCel_celText (isExportable_negations n) (notsSpelled_negations n)
    (Expression.isGrammatical_enclosed (isGrammatical_negations n)) himports (by omega)
  rw [celText_negations] at hfilter
  exact bind_eq_ok.mpr ⟨_, hfilter, rfl⟩

/-- Import accepts 64 negations, which are 128 terms around `a pr` with their
parentheses, and a keyword as an attribute, and a list behind any operator. -/
theorem filterTextOfCel_unread :
    (filterTextOfCel .identity (bangs 64) = .ok (negations 64).text ∧
        ∀ f, Expression.parse (negations 64).text ≠ .ok f) ∧
      (filterTextOfCel .identity "and == 1" = .ok "and eq 1" ∧
        ∀ f, Expression.parse "and eq 1" ≠ .ok f) ∧
      filterTextOfCel .identity "a == [1]" = .ok "a eq [1]" ∧
        ∀ f, Expression.parse "a eq [1]" ≠ .ok f := by
  have hrefused : ∀ {text : String}, (Expression.parse text).toOption = none →
      ∀ f, Expression.parse text ≠ .ok f := by
    intro text hnone f hf
    rw [hf] at hnone
    cases hnone
  refine ⟨⟨filterTextOfCel_bangs (by decide), fun f hf => ?_⟩,
    ⟨by decide +kernel, hrefused (by decide +kernel)⟩, by decide +kernel,
    hrefused (by decide +kernel)⟩
  have hparse := Expression.parse_nots (n := 64) (by decide)
  have hnesting := ((Expression.parse_text_of_parse hparse).mp hf).2.1
  rw [Expression.nesting_enclosed_negations] at hnesting
  exact absurd hnesting (by decide)

end PolicyDialects.Condition
