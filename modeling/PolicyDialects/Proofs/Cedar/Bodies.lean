import PolicyDialects.Proofs.Cedar.Lexical
import PolicyDialects.Proofs.Condition.Export

/-!
# Conditions as bodies of clauses

The CEL text of a condition quotes its strings, so what is written in them
cannot end the clause it is put in. Attribute names are written as they are,
and each must keep its own braces and quotes together.

Results:

* `yields_toCel`: an exported condition is the body of a clause wherever it
  stands.
-/

namespace PolicyDialects.Cedar

open Text
open PolicyDialects.Filter (Comparison CompareOperator Expression Value)

/-! ## Texts without blanks at their ends -/

/-- A text that keeps together and starts with no blank. -/
structure IsNameText (name : String) : Prop where
  chars : IsBodyChars name.toList
  first : ∃ c ∈ name.toList.head?, isBlank c = false

/-- A text that keeps together and neither starts nor ends with a blank. -/
structure IsSolid (text : String) : Prop extends IsNameText text where
  last : ∃ c ∈ text.toList.getLast?, isBlank c = false

theorem IsSolid.isBodyText {text : String} (h : IsSolid text) : IsBodyText text := by
  obtain ⟨⟨hchars, c, hc, hfirst⟩, d, hd, hlast⟩ := h
  refine ⟨hchars, ?_⟩
  obtain ⟨cs, hcs⟩ := List.head?_eq_some_iff.mp (Option.mem_def.mp hc)
  obtain ⟨ds, hds⟩ := List.getLast?_eq_some_iff.mp (Option.mem_def.mp hd)
  have htrim : trim text.toList = text.toList := by
    rw [trim, hcs, List.dropWhile_cons_of_neg (by simp [hfirst]), ← hcs, hds, List.reverse_append,
      List.reverse_singleton, List.singleton_append,
      List.dropWhile_cons_of_neg (by simp [hlast]), List.reverse_cons, List.reverse_reverse]
  rw [trimmed, htrim, String.ofList_toList]

theorem IsNameText.append {first last : String} (hfirst : IsNameText first)
    (hlast : IsBodyChars last.toList) : IsNameText (first ++ last) := by
  obtain ⟨hchars, c, hc, hblank⟩ := hfirst
  obtain ⟨cs, hcs⟩ := List.head?_eq_some_iff.mp (Option.mem_def.mp hc)
  refine ⟨?_, c, ?_, hblank⟩
  · rw [String.toList_append]
    exact hchars.append hlast
  · rw [String.toList_append, hcs]
    rfl

theorem IsNameText.append_solid {first last : String} (hfirst : IsNameText first)
    (hlast : IsSolid last) : IsSolid (first ++ last) := by
  obtain ⟨c, hc, hblank⟩ := hlast.last
  obtain ⟨cs, hcs⟩ := List.getLast?_eq_some_iff.mp (Option.mem_def.mp hc)
  refine ⟨hfirst.append hlast.chars, c, ?_, hblank⟩
  rw [String.toList_append, hcs, ← List.append_assoc, List.getLast?_concat]
  rfl

/-- Plain characters, none of them blank. -/
theorem isSolid_plain {text : String} (hne : text.toList ≠ [])
    (h : ∀ c ∈ text.toList, (c ≠ '"' ∧ c ≠ '\x7b' ∧ c ≠ '\x7d') ∧ isBlank c = false) :
    IsSolid text := by
  refine ⟨⟨isBodyChars_plain fun c hc => (h c hc).1, ?_⟩, ?_⟩
  · obtain ⟨c, cs, hcs⟩ := List.exists_cons_of_ne_nil hne
    exact ⟨c, by rw [hcs]; rfl, (h c (by rw [hcs]; exact List.mem_cons_self)).2⟩
  · have hlast := List.getLast?_eq_some_getLast hne
    exact ⟨_, hlast, (h _ (List.getLast_mem hne)).2⟩

/-- What keeps together, between two solid texts. -/
theorem IsSolid.enclosed {start middle finish : String} (hstart : IsSolid start)
    (hmiddle : IsBodyChars middle.toList) (hfinish : IsSolid finish) :
    IsSolid (start ++ middle ++ finish) :=
  (hstart.toIsNameText.append hmiddle).append_solid hfinish

/-! ## Values -/

/-- Letters, digits and the marks of numbers. -/
theorem plain_of_class {c : Char} (h : Filter.isNumberPart c = true ∨ isLetter c = true) :
    (c ≠ '"' ∧ c ≠ '\x7b' ∧ c ≠ '\x7d') ∧ isBlank c = false := by
  have hdelimiter := Filter.isDelimiter_of_class h
  have hbraces : c ≠ '\x7b' ∧ c ≠ '\x7d' := by
    constructor <;> (rintro rfl; revert h; decide)
  simp only [Filter.isDelimiter, Bool.or_eq_false_iff] at hdelimiter
  refine ⟨⟨?_, hbraces⟩, hdelimiter.1.1.1.1.1.1⟩
  rintro rfl
  exact absurd hdelimiter.1.2 (by decide)

theorem isSolid_word {v : Value} (h : v.IsWord) : IsSolid v.text :=
  isSolid_plain (Value.text_ne_nil h) fun _ hc =>
    plain_of_class (Value.isNumberPart_of_mem_text h hc)

theorem isSolid_quote (s : String) : IsSolid (quote s) := by
  have hchars : IsBodyChars (quote s).toList := by
    have := IsBodyChars.literal (isLiteral_quote s) .nil
    rwa [List.append_nil] at this
  refine ⟨⟨hchars, '"', ?_, by decide⟩, '"', ?_, by decide⟩
  · rw [toList_quote]; rfl
  · rw [toList_quote, ← List.cons_append, List.getLast?_concat]; rfl

theorem isSolid_float (x : Binary64) : IsSolid x.text := by
  cases x with
  | nan => exact isSolid_plain (by decide) (by decide)
  | infinite negative => cases negative <;> exact isSolid_plain (by decide) (by decide)
  | finite negative units fits =>
    exact isSolid_word (v := .float (.finite negative units fits)) trivial

mutual

/-- The spelling of a value, whatever its strings hold. -/
theorem isSolid_value (v : Value) : IsSolid v.text := by
  match v with
  | .string s => exact isSolid_quote s
  | .integer i => exact isSolid_word (v := .integer i) trivial
  | .float x => exact isSolid_float x
  | .boolean b => exact isSolid_word (v := .boolean b) trivial
  | .list items =>
    have hopen : IsSolid "[" := isSolid_plain (by decide) (by decide)
    have hclose : IsSolid "]" := isSolid_plain (by decide) (by decide)
    exact hopen.enclosed (isBodyChars_values items) hclose

/-- The spellings of values, separated by commas. -/
theorem isBodyChars_values (items : List Value) :
    IsBodyChars (", ".intercalate (Value.texts items)).toList := by
  match items with
  | [] => exact .nil
  | [v] => exact (isSolid_value v).chars
  | v :: w :: vs =>
    have hrest := isBodyChars_values (w :: vs)
    rw [Value.toList_intercalate_texts]
    refine (isSolid_value v).chars.append ?_
    exact .char (by decide) (by decide) (by decide)
      (.char (by decide) (by decide) (by decide) hrest)

end

/-! ## Conditions -/

/-- Every attribute name of an expression, as the map gives it, is the start of a
text that keeps together. -/
def NamesFit (names : NameMap) (e : Expression) : Prop :=
  e.Each (fun _ => True) fun c => Yields IsNameText (names.resolveProvider c.path)

theorem isSolid_relation {op : CompareOperator} {symbol : String}
    (h : op.celForm = .relation symbol) : IsSolid symbol := by
  cases op <;> cases h <;> exact isSolid_plain (by decide) (by decide)

theorem isSolid_method {op : CompareOperator} {name : String} (h : op.celForm = .method name) :
    IsSolid name := by
  cases op <;> cases h <;> exact isSolid_plain (by decide) (by decide)

theorem yields_comparison {names : NameMap} {c : Comparison}
    (h : Yields IsNameText (names.resolveProvider c.path)) : Yields IsSolid (c.toCel names) := by
  unfold Comparison.toCel
  refine h.bind fun path hpath => ?_
  have hparen : IsSolid ")" := isSolid_plain (by decide) (by decide)
  split
  · have hhas : IsSolid "has(" := isSolid_plain (by decide) (by decide)
    exact .ok (hhas.enclosed hpath.chars hparen)
  · rename_i symbol value hform _
    have hblank : IsBodyChars " ".toList := isBodyChars_plain (by decide)
    have hrelation := (hpath.append hblank).append_solid (isSolid_relation hform)
    exact .ok (hrelation.enclosed hblank (isSolid_value value))
  · rename_i name value hform _
    have hdot : IsBodyChars ".".toList := isBodyChars_plain (by decide)
    have hopen : IsBodyChars "(".toList := isBodyChars_plain (by decide)
    have hmethod := (hpath.append hdot).append_solid (isSolid_method hform)
    exact .ok ((hmethod.enclosed hopen (isSolid_value value)).append_solid hparen)
  · exact .error _

theorem yields_negated {names : NameMap} {inner : Expression} (h : NamesFit names inner)
    {text : Except PolicyError String} (htext : Yields IsSolid text) :
    Yields IsSolid (Expression.toCelAt.negated names inner text) := by
  have hbang : IsSolid "!" := isSolid_plain (by decide) (by decide)
  have hopen : IsSolid "!(" := isSolid_plain (by decide) (by decide)
  have hclose : IsSolid ")" := isSolid_plain (by decide) (by decide)
  have hnegated : Yields IsSolid (text.map ("!" ++ ·)) :=
    htext.map fun s hs => hbang.append_solid hs
  cases inner with
  | compare c =>
    rw [Expression.toCelAt.negated]
    split
    · exact hnegated
    · exact (yields_comparison h).map fun s hs => hopen.enclosed hs.chars hclose
  | logical op left right => exact htext.map fun s hs => hopen.enclosed hs.chars hclose
  | not inner => exact hnegated
  | group inner => exact hnegated
  | valuePath path filter => exact hnegated

/-- A condition that is too deep is not exported. -/
theorem yields_unless_deep {names : NameMap} {e : Expression} {u : Bool} {d : Nat}
    (h : ¬Expression.maxDepth < d → Yields IsSolid (e.toCelAt names u d)) :
    Yields IsSolid (e.toCelAt names u d) := by
  by_cases hd : Expression.maxDepth < d
  · unfold Expression.toCelAt
    rw [if_pos hd]
    exact .error _
  · exact h hd

/-- Whatever the strings of a condition hold, its CEL text keeps together. -/
theorem yields_toCelAt {names : NameMap} {e : Expression} (h : NamesFit names e) (u : Bool)
    (d : Nat) : Yields IsSolid (e.toCelAt names u d) := by
  have hopen : IsSolid "(" := isSolid_plain (by decide) (by decide)
  have hclose : IsSolid ")" := isSolid_plain (by decide) (by decide)
  induction e using Expression.operandInduction generalizing u d with
  | compare c =>
    refine yields_unless_deep fun hd => ?_
    rw [Expression.toCelAt, if_neg hd]
    exact yields_comparison h
  | logical op left right ihl ihr =>
    refine yields_unless_deep fun hd => ?_
    cases op with
    | and =>
      have hjoin : IsBodyChars " && ".toList := isBodyChars_plain (by decide)
      rw [Expression.toCelAt, if_neg hd]
      refine (ihl h.1 true (d + 1)).bind fun l hl => (ihr h.2 true (d + 1)).bind fun r hr => ?_
      exact .ok (hl.enclosed hjoin hr)
    | or =>
      have hjoin : IsBodyChars " || ".toList := isBodyChars_plain (by decide)
      rw [Expression.toCelAt, if_neg hd]
      refine (ihl h.1 false (d + 1)).bind fun l hl => (ihr h.2 false (d + 1)).bind fun r hr => ?_
      have hboth := hl.enclosed hjoin hr
      cases u with
      | true => exact .ok (hopen.enclosed hboth.chars hclose)
      | false => exact .ok hboth
  | not inner ih =>
    refine yields_unless_deep fun hd => ?_
    have hinner : NamesFit names inner.unparenthesized := by
      cases inner <;> exact h
    rw [Expression.toCelAt_not _ _ hd]
    exact yields_negated hinner (ih hinner false (d + 1))
  | group inner ih =>
    refine yields_unless_deep fun hd => ?_
    rw [Expression.toCelAt, if_neg hd]
    exact (ih h false (d + 1)).bind fun s hs => .ok (hopen.enclosed hs.chars hclose)
  | valuePath path filter =>
    refine yields_unless_deep fun hd => ?_
    rw [Expression.toCelAt, if_neg hd]
    exact .error _

/-- An exported condition is the body of a clause wherever it stands. -/
theorem yields_toCel {names : NameMap} {e : Expression} (h : NamesFit names e) :
    Yields IsBodyText (e.toCel names) :=
  (yields_toCelAt h false 1).imp fun _ htext => htext.isBodyText

end PolicyDialects.Cedar
