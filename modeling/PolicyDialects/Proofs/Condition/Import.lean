import PolicyDialects.Condition
import PolicyDialects.Proofs.Cel.Grammar
import PolicyDialects.Proofs.Condition.Export
import PolicyDialects.Proofs.Filter.RoundTrip

/-!
# Imported conditions keep their meaning

Results:

* `truth?_eq_holds_of_parse`: a CEL condition, converted to a filter, printed
  and read again, is true of the same comparisons as before.
-/

namespace PolicyDialects.Condition

open Cel (Tree)
open PolicyDialects.Filter (Comparison Expression)

theorem toFilter_of_filterTextOfCel {names : NameMap} {cel text : String} {t : Tree}
    (hparse : Tree.parse cel = .ok t) (htext : filterTextOfCel names cel = .ok text) :
    ∃ e, t.toFilter names = .ok e ∧ e.text = text := by
  unfold filterTextOfCel filterOfCel at htext
  rw [hparse] at htext
  obtain ⟨e, he, htext⟩ := bind_eq_ok.mp htext
  cases htext
  exact ⟨e, he, rfl⟩

/-- However `&&`, `||` and `!` are grouped in a CEL condition, the filter read
back from its printed conversion is true exactly when the condition is. -/
theorem truth?_eq_holds_of_parse {cel text : String} {t : Tree} {f : Expression}
    (hparse : Tree.parse cel = .ok t) (hfinite : t.FloatsFinite)
    (htext : filterTextOfCel .identity cel = .ok text) (hread : Expression.parse text = .ok f)
    (truth : List String → Comparison → Bool) :
    t.truth? (truth []) = some (f.holds truth) := by
  obtain ⟨e, he, rfl⟩ := toFilter_of_filterTextOfCel hparse htext
  have himports := (Tree.imports_of_toFilterAt he).1
  have hlexical := himports.isLexical (Cel.named_of_parse hparse) hfinite
  have hanswers := Expression.parse_text hlexical himports.orsApart
  have hf : f = e.canonical := by
    by_contra hne
    -- any other reading would be a failure
    have hbad := hanswers.2 fun hgood => hne (Except.ok.inj (hread.symm.trans (hanswers.1 hgood)))
    obtain ⟨err, herr⟩ := hbad
    rw [hread] at herr
    cases herr
  rw [hf, Expression.holds_canonical]
  exact himports.truth?_eq truth

/-- `!has(a) && (b == 1 || has(c))`. -/
def groupedCondition : Tree :=
  .and (.unary .not (.call "has" [.ident "a"]))
    (.or (.relation .equals (.ident "b") (.constant (.int 1))) (.call "has" [.ident "c"]))

/-- `not(a pr) and (b eq 1 or c pr)`. -/
def groupedFilter : Expression :=
  .and (.not (.group (.compare (.present "a"))))
    (.group (.or (.compare (.with "b" .eq (.integer 1))) (.compare (.present "c"))))

theorem truth?_groupedCondition :
    Tree.parse "!has(a) && (b == 1 || has(c))" = .ok groupedCondition ∧
      groupedCondition.FloatsFinite ∧
      filterTextOfCel .identity "!has(a) && (b == 1 || has(c))" = .ok groupedFilter.text ∧
      Expression.parse groupedFilter.text = .ok groupedFilter ∧
      groupedCondition.truth? (fun c => c.path == "c") =
        some (groupedFilter.holds fun _ c => c.path == "c") :=
  let spelled : Expression := .and (.not (.compare (.present "a")))
    (.group (.or (.compare (.with "b" .eq (.integer 1))) (.compare (.present "c"))))
  have hparse : Tree.parse "!has(a) && (b == 1 || has(c))" = .ok groupedCondition :=
    Expression.parse_celText (e := spelled) (by decide) ⟨⟨rfl, trivial⟩, trivial, trivial⟩
      ⟨rfl, rfl, ⟨rfl, trivial⟩, rfl, trivial, trivial⟩
  have hfinite : groupedCondition.FloatsFinite := by
    refine .and (.unary (.call trivial ?_))
      (.or (.relation (.ident trivial) (.constant trivial)) (.call trivial ?_))
    · simpa using .ident trivial
    · simpa using .ident trivial
  have htext : filterTextOfCel .identity "!has(a) && (b == 1 || has(c))" =
      .ok groupedFilter.text := by
    unfold filterTextOfCel filterOfCel
    rw [hparse]
    decide +kernel
  have hread : Expression.parse groupedFilter.text = .ok groupedFilter :=
    Expression.parse_text_of_isPrintable (e := groupedFilter) (by decide) (by decide) (by decide)
  ⟨hparse, hfinite, htext, hread,
    truth?_eq_holds_of_parse hparse hfinite htext hread fun _ c => c.path == "c"⟩

end PolicyDialects.Condition
