import PolicyDialects.Proofs.Cel.Scanned
import PolicyDialects.Proofs.Condition.Refusal
import PolicyDialects.Proofs.Filter.Stability

/-!
# Paths in exported conditions

Export writes the paths of a filter as they are, and CEL needs no blanks
between its tokens. A path that has no sign of a relation in it and starts with
neither `!` nor a point is either read as the path that it is, or the text is
refused. Any other path may be read as syntax.

Results:

* `Expression.IsPlain.isExportable_of_imports`: a written condition of plain
  paths that can be imported is made of dotted names and finite values.
* `comparisons_of_filterOfCel`: what import returns has the comparisons and the
  truth of the filter.
-/

namespace PolicyDialects.Filter

open Cel (Accepts EndsLiteral IsPlainPath OneLine)
open Text

/-! ## Lines -/

theorem oneLine_of_isUnbroken {w : String} (h : IsUnbroken w) : OneLine w.toList := by
  intro c hc
  have hdelimiter := h.2 c hc
  constructor <;> (rintro rfl; revert hdelimiter; decide)

theorem oneLine_quote (s : String) : OneLine (quote s).toList := by
  intro c hc
  have hcontrol := isControl_of_mem_quote hc
  constructor <;> (rintro rfl; revert hcontrol; decide)

mutual

theorem oneLine_value (v : Value) : OneLine v.text.toList := by
  match v with
  | .string s => exact oneLine_quote s
  | .integer i => exact oneLine_of_isUnbroken (Value.isUnbroken_text (v := .integer i) trivial)
  | .float x => exact oneLine_of_isUnbroken (Value.isUnbroken_float x)
  | .boolean b => exact oneLine_of_isUnbroken (Value.isUnbroken_text (v := .boolean b) trivial)
  | .list items =>
    have hitems := oneLine_values items
    have hbrackets : OneLine ('[' :: ((", ".intercalate (Value.texts items)).toList ++ [']'])) :=
      List.forall_mem_cons.mpr ⟨by decide, List.forall_mem_append.mpr ⟨hitems, by decide⟩⟩
    simpa [Value.text] using hbrackets

theorem oneLine_values (vs : List Value) :
    OneLine (", ".intercalate (Value.texts vs)).toList := by
  match vs with
  | [] => exact fun c hc => by cases hc
  | [v] => exact oneLine_value v
  | v :: w :: vs =>
    rw [Value.toList_intercalate_texts]
    refine List.forall_mem_append.mpr ⟨oneLine_value v, ?_⟩
    exact List.forall_mem_cons.mpr ⟨by decide,
      List.forall_mem_cons.mpr ⟨by decide, oneLine_values (w :: vs)⟩⟩

end

theorem Comparison.oneLine_celText {c : Comparison} (hc : c.IsWellFormed) :
    OneLine c.celText.toList := by
  have hpath := oneLine_of_isUnbroken hc.path
  unfold Comparison.celText
  cases Cel.celShape hc.value_iff with
  | presence hop hvalue =>
    rw [hop]
    simp only [CompareOperator.celForm, String.toList_append]
    exact List.forall_mem_append.mpr ⟨List.forall_mem_append.mpr ⟨by decide, hpath⟩, by decide⟩
  | relation v symbol s r hvalue hform hrelation hsymbol hs =>
    have hspelling : ∀ s ∈ Cel.relations, OneLine s.spelling := by decide
    have hsign : OneLine symbol.toList := by
      rw [hsymbol]
      exact hspelling s hs
    rw [hform, hvalue]
    simp only [String.toList_append, List.forall_mem_append]
    exact ⟨⟨⟨⟨hpath, by decide⟩, hsign⟩, by decide⟩, oneLine_value v⟩
  | method v name hvalue hform hop hname =>
    have hmethod := oneLine_of_isUnbroken (Cel.Tree.isUnbroken_of_isName hname)
    rw [hform, hvalue]
    simp only [String.toList_append, List.forall_mem_append]
    exact ⟨⟨⟨⟨⟨hpath, by decide⟩, hmethod⟩, by decide⟩, oneLine_value v⟩, by decide⟩

namespace Expression

/-! ## Plain conditions -/

/-- There is no value path, the comparisons have the values that their operators
take, and their paths are plain words. -/
abbrev IsPlain (e : Expression) : Prop :=
  e.Each (fun _ => False) fun c => c.IsWellFormed ∧ IsPlainPath c.path

theorem IsPlain.isWritable {e : Expression} (he : e.IsPlain) : e.IsWritable :=
  he.imp (fun _ hp => hp) fun _ hc => hc.1.value_iff

theorem oneLine_celText {e : Expression} (he : e.IsPlain) : OneLine e.celText.toList := by
  induction e with
  | compare c => exact Comparison.oneLine_celText he.1
  | logical op left right ihl ihr =>
    cases op <;>
      (simp only [celText, String.toList_append, List.forall_mem_append]
       exact ⟨⟨ihl he.1, by decide⟩, ihr he.2⟩)
  | not inner ih =>
    simp only [celText, String.toList_append, List.forall_mem_append]
    exact ⟨by decide, ih he⟩
  | group inner ih =>
    simp only [celText, String.toList_append, List.forall_mem_append]
    exact ⟨⟨by decide, ih he⟩, by decide⟩
  | valuePath path filter => exact he.1.elim

theorem startsApart_plain {path : String} (hword : IsUnbroken path) (hplain : IsPlainPath path)
    (cs : List Char) : StartsApart (path.toList ++ cs) := by
  obtain ⟨c, rest, hpath⟩ := List.exists_cons_of_ne_nil hword.1
  have hstart := hplain.start c (by rw [hpath]; rfl)
  have hfree := hplain.free c (by rw [hpath]; exact List.mem_cons_self)
  rw [hpath]
  exact stops_cons (by simp [hstart, hfree]) _

/-- A written condition of plain paths, if it passes the scan, passes it as it
was written. -/
theorem accepts_celText {e : Expression} (he : e.IsPlain) (hopen : e.NotsOpen)
    {rest : List Char} (hrest : EndsLiteral rest)
    (h : Accepts .operand (e.celText.toList ++ rest)) :
    e.IsExportable ∧ Accepts .tail rest := by
  fun_induction celPieces e generalizing rest with
  | case1 c => exact h.comparison hrest he.1 he.2
  | case2 left right ihl ihr =>
    have htext : Accepts .operand
        (left.celText.toList ++ ' ' :: ("&&".toList ++ ' ' :: (right.celText.toList ++ rest))) := by
      simpa [celText] using h
    obtain ⟨hleft, hsign⟩ := ihl he.1 hopen.1 (Cel.endsLiteral_blank (by decide) _) htext
    have hoperand := hsign.operator (m := .andAnd) (by decide) rfl
    obtain ⟨hright, htail⟩ := ihr he.2 hopen.2 hrest hoperand
    exact ⟨⟨hleft, hright⟩, htail⟩
  | case3 left right ihl ihr =>
    have htext : Accepts .operand
        (left.celText.toList ++ ' ' :: ("||".toList ++ ' ' :: (right.celText.toList ++ rest))) := by
      simpa [celText] using h
    obtain ⟨hleft, hsign⟩ := ihl he.1 hopen.1 (Cel.endsLiteral_blank (by decide) _) htext
    have hoperand := hsign.operator (m := .orOr) (by decide) rfl
    obtain ⟨hright, htail⟩ := ihr he.2 hopen.2 hrest hoperand
    exact ⟨⟨hleft, hright⟩, htail⟩
  | case4 inner ih =>
    have htext : Accepts .operand ("!!".toList ++ (inner.celText.toList ++ rest)) := by
      simpa [celText] using h
    have hmark := Cel.leads_mark (s := .bangBang) (by decide) (inner.celText.toList ++ rest)
    exact ih he hopen.2.2 hrest (htext.leads_to hmark rfl)
  | case5 inner hne ih =>
    have hplain : inner.IsPlain := he
    have htext : Accepts .operand ("!".toList ++ (inner.celText.toList ++ rest)) := by
      simpa [celText] using h
    have hatom := isAtom_of_isOperand hopen.1 hplain.isWritable fun x hx => hne x hx
    have hpaths := hplain.imp (fun _ hp => hp) fun _ hc => startsApart_plain hc.1.path hc.2
    have hstarts := startsApart_celText hplain.isWritable hpaths hatom rest
    have hmark := Cel.leads_openMark (s := .bang) (by decide) hstarts
    exact ih he hopen.2 hrest (htext.leads_to hmark rfl)
  | case6 inner ih =>
    have htext : Accepts .operand ('(' :: (inner.celText.toList ++ ')' :: rest)) := by
      simpa [celText] using h
    obtain ⟨hinner, hclose⟩ := ih he hopen (Cel.endsLiteral_cons (by decide) rest)
      (htext.mark (m := .leftParen) rfl (by decide) rfl)
    exact ⟨hinner, hclose.mark (m := .rightParen) rfl (by decide) rfl⟩
  | case7 => exact he.1.elim

/-- A condition of plain paths whose text can be imported is made of dotted
names and finite values. -/
theorem IsPlain.isExportable_of_imports {e r : Expression} {u : Bool} {t : Cel.Tree}
    (he : e.IsPlain) (hparse : Cel.Tree.parse e.written.celText = .ok t)
    (himports : Cel.Tree.Imports u t r) : e.IsExportable := by
  have hplain : (parenthesized false e).IsPlain := (each_parenthesized false e).mpr he
  rw [written, celText_leftNested] at hparse
  obtain ⟨ts, finish, hts, hscan⟩ := Cel.scan_of_imports hparse himports
  have haccepts : Accepts .operand ((parenthesized false e).celText.toList ++ []) := by
    rw [List.append_nil]
    exact ⟨oneLine_celText hplain, 0, 0, ts, finish, hts, hscan⟩
  have hopen := notsOpen_parenthesized he.isWritable false
  obtain ⟨hexportable, -⟩ := accepts_celText hplain hopen Cel.endsLiteral_nil haccepts
  exact (each_parenthesized false e).mp hexportable

/-! ## What is exported -/

theorem not_lt_of_toCelAt {names : NameMap} {u : Bool} {d : Nat} {e : Expression} {text : String}
    (h : e.toCelAt names u d = .ok text) : ¬maxDepth < d := by
  intro hd
  rw [toCelAt.eq_def, if_pos hd] at h
  cases h

/-- The operand of an exported negation has a text, unless it is a comparison,
which is written anew. -/
theorem negated_eq_ok {names : NameMap} {inner : Expression} {t : Except PolicyError String}
    {text : String} (h : toCelAt.negated names inner t = .ok text) :
    (∃ c, inner = .compare c) ∨ ∃ s, t = .ok s := by
  cases inner with
  | compare c => exact .inl ⟨c, rfl⟩
  | _ =>
    obtain ⟨s, hs, -⟩ := map_eq_ok.mp h
    exact .inr ⟨s, hs⟩

/-- What is exported has no value paths. -/
theorem each_of_toCelAt {names : NameMap} {u : Bool} {d : Nat} {e : Expression} {text : String}
    (h : e.toCelAt names u d = .ok text) : e.Each (fun _ => False) fun _ => True := by
  have hd := not_lt_of_toCelAt h
  induction e using operandInduction generalizing u d text with
  | compare c => trivial
  | logical op left right ihl ihr =>
    cases op <;>
      (rw [toCelAt, if_neg hd] at h
       obtain ⟨l, hl, h⟩ := bind_eq_ok.mp h
       obtain ⟨r, hr, -⟩ := bind_eq_ok.mp h
       exact ⟨ihl hl (not_lt_of_toCelAt hl), ihr hr (not_lt_of_toCelAt hr)⟩)
  | not inner ih =>
    rw [toCelAt_not names u hd] at h
    apply (each_unparenthesized inner).mp
    rcases negated_eq_ok h with ⟨c, hc⟩ | ⟨s, hs⟩
    · rw [hc]
      trivial
    · exact ih hs (not_lt_of_toCelAt hs)
  | group inner ih =>
    rw [toCelAt, if_neg hd] at h
    obtain ⟨s, hs, -⟩ := bind_eq_ok.mp h
    exact ih hs (not_lt_of_toCelAt hs)
  | valuePath path filter =>
    rw [toCelAt, if_neg hd] at h
    cases h

end Expression

end PolicyDialects.Filter

namespace PolicyDialects.Condition

open Cel (Accepts IsPlainPath Tree)
open PolicyDialects.Filter (Comparison Expression)

/-! ## There and back -/

/-- If a filter of plain paths is exported and its text is imported, what comes
back has the comparisons of the filter in their order, the same truth, and
parentheses exactly around each `or` that is a direct operand of an `and`. -/
theorem comparisons_of_filterOfCel {filter text : String} {e r : Expression}
    (h : Expression.parse filter = .ok e)
    (hplain : e.Each (fun _ => True) fun c => IsPlainPath c.path)
    (htext : celOfFilter .identity filter = .ok text)
    (hr : filterOfCel .identity text = .ok r) :
    r.comparisons = e.comparisons ∧ (∀ truth, r.holds truth = e.holds truth) ∧
      Expression.GroupsOrs false r := by
  obtain ⟨ts, -, hspells, -, hdepth⟩ := Filter.spells_of_parse h
  have hcel : e.toCel .identity = .ok text := by
    unfold celOfFilter at htext
    rwa [h] at htext
  have hplain : e.IsPlain :=
    ((Expression.each_of_toCelAt hcel).and
      ((Filter.isWellFormed_of_parse h).and hplain)).imp (fun _ hp => hp.1) fun _ hc => hc.2
  have hwritten := Expression.toCel_written hplain.isWritable hdepth
  obtain rfl := Except.ok.inj (hcel.symm.trans hwritten)
  obtain ⟨t, ht, hfilter⟩ := bind_eq_ok.mp hr
  obtain ⟨himports, hlevels⟩ := Tree.imports_of_toFilterAt hfilter
  have he := hplain.isExportable_of_imports ht himports
  have hsame : Tree.parse e.written.celText = .ok e.written.celTree := by
    rcases Expression.parse_written_or_refused he with hread | ⟨err, herr⟩
    · exact hread
    · rw [herr] at ht
      cases ht
  obtain rfl := Except.ok.inj (ht.symm.trans hsame)
  obtain ⟨r', himports', hcomparisons, hholds⟩ :=
    Expression.imports_celTree (Expression.isExportable_written he) false
  obtain rfl : r = r' := by
    have hfilter' := Tree.toFilterAt_eq_ok_iff.mpr ⟨himports', hlevels⟩
    exact Except.ok.inj (hfilter.symm.trans hfilter')
  refine ⟨?_, fun truth => ?_, Expression.groupsOrs_of_imports himports⟩
  · rw [hcomparisons, Expression.comparisons_written]
  · rw [hholds, Expression.holds_written]

/-- `a.b eq "x//y" and not (c pr)`, the operand of `not` with or without a node
for its parentheses. -/
def slashes (operand : Expression) : Expression :=
  .and (.compare (.with "a.b" .eq (.string "x//y"))) (.not operand)

theorem comparisons_of_filterOfCel_slashes :
    Expression.parse "a.b eq \"x//y\" and not (c pr)" =
        .ok (slashes (.group (.compare (.present "c")))) ∧
      celOfFilter .identity "a.b eq \"x//y\" and not (c pr)" =
        .ok "a.b == \"x//y\" && !has(c)" ∧
      filterOfCel .identity "a.b == \"x//y\" && !has(c)" =
        .ok (slashes (.compare (.present "c"))) ∧
      (slashes (.compare (.present "c"))).comparisons =
        (slashes (.group (.compare (.present "c")))).comparisons := by
  have hparse : Expression.parse "a.b eq \"x//y\" and not (c pr)" =
      .ok (slashes (.group (.compare (.present "c")))) := by decide +kernel
  have hplain : (slashes (.group (.compare (.present "c")))).Each (fun _ => True)
      fun c => IsPlainPath c.path := by decide +kernel
  have htext : celOfFilter .identity "a.b eq \"x//y\" and not (c pr)" =
      .ok "a.b == \"x//y\" && !has(c)" := by decide +kernel
  have hr : filterOfCel .identity "a.b == \"x//y\" && !has(c)" =
      .ok (slashes (.compare (.present "c"))) := by decide +kernel
  exact ⟨hparse, htext, hr, (comparisons_of_filterOfCel hparse hplain htext hr).1⟩

/-- The filter is exported, and what import makes of its text has other
comparisons. -/
def Misread (filter text : String) (e r : Expression) : Prop :=
  Expression.parse filter = .ok e ∧ celOfFilter .identity filter = .ok text ∧
    filterOfCel .identity text = .ok r ∧ r.comparisons ≠ e.comparisons

instance (filter text : String) (e r : Expression) : Decidable (Misread filter text e r) :=
  inferInstanceAs (Decidable (_ ∧ _ ∧ _ ∧ _))

/-- A path with a sign of a relation in it, or with `!` or a point in front, is
read as syntax. -/
theorem filterOfCel_splicedPath :
    Misread "a==1||b eq 2" "a==1||b == 2" (.compare (.with "a==1||b" .eq (.integer 2)))
        (.or (.compare (.with "a" .eq (.integer 1))) (.compare (.with "b" .eq (.integer 2)))) ∧
      Misread "a<1||b eq 2" "a<1||b == 2" (.compare (.with "a<1||b" .eq (.integer 2)))
        (.or (.compare (.with "a" .lt (.integer 1))) (.compare (.with "b" .eq (.integer 2)))) ∧
      Misread "a>1||b eq 2" "a>1||b == 2" (.compare (.with "a>1||b" .eq (.integer 2)))
        (.or (.compare (.with "a" .gt (.integer 1))) (.compare (.with "b" .eq (.integer 2)))) ∧
      Misread "!a eq 1" "!a == 1" (.compare (.with "!a" .eq (.integer 1)))
        (.not (.compare (.with "a" .eq (.integer 1)))) ∧
      Misread ".a eq 1" ".a == 1" (.compare (.with ".a" .eq (.integer 1)))
        (.compare (.with "a" .eq (.integer 1))) := by
  refine ⟨?_, ?_, ?_, ?_, ?_⟩ <;> decide +kernel

end PolicyDialects.Condition
