import PolicyDialects.Filter.ToCel
import PolicyDialects.Proofs.Cel.Import
import PolicyDialects.Proofs.Cel.Literals
import PolicyDialects.Proofs.Cel.Reading
import PolicyDialects.Proofs.Text.Joined

/-!
# Comparisons as CEL spells them

The CEL text of a comparison, the pieces it is cut into, and the tree that the
pieces spell.

Results:

* `toCel_identity`: the text is what export gives.
* `lexes_comparison`: the text is cut into the pieces.
* `readComparison_comparison`, `readMember_comparison`: the pieces spell the
  tree; a call is an operand by itself.
* `comparison?_celTree`: the tree makes the comparison.
* `Tree.Imports.each_isExportable`: every comparison that was read has a text.
-/

namespace PolicyDialects.Filter

open Cel (Tree Relation Symbol Piece mark word)
open Text

/-! ## Definitions -/

mutual

/-- The tree of a constant. -/
def Value.celTree : Value → Tree
  | .string s => .constant (.string s)
  | .integer i => .constant (.int i)
  | .float x => .constant (.float x)
  | .boolean b => .constant (.bool b)
  | .list items => .list (celTrees items)

/-- The trees of constants. -/
def Value.celTrees : List Value → List Tree
  | [] => []
  | v :: vs => celTree v :: celTrees vs

end

mutual

/-- The pieces of a constant. -/
def Value.celPieces : Value → List Piece
  | .string s => [(.literal .string, (quote s).toList)]
  | .integer i => [(.literal .int, intNumeral i.toInt)]
  | .float x => [(.literal .float, x.chars)]
  | .boolean b => [mark (if b then .true else .false)]
  | .list items => mark .leftBracket :: (celItemPieces items ++ [mark .rightBracket])

/-- The pieces of the items of a list. -/
def Value.celItemPieces : List Value → List Piece
  | [] => []
  | [v] => celPieces v
  | v :: w :: vs => celPieces v ++ mark .comma :: celItemPieces (w :: vs)

end

/-- The first name of a path and the names after it. -/
def pathNames (path : String) : String × List String :=
  match path.toList.splitOn '.' with
  | [] => ("", [])
  | first :: more => (String.ofList first, more.map String.ofList)

/-- A dotted chain of names. -/
def IsAttributePath (path : String) : Prop := ∀ name ∈ path.toList.splitOn '.', Cel.IsName name

instance : DecidablePred Cel.IsName := fun cs =>
  decidable_of_iff (cs.head?.any isIdentStart = true ∧ (∀ c ∈ cs, isIdentPart c = true) ∧
      ∀ s ∈ Symbol.words, s.spelling ≠ cs) <| by
    refine ⟨fun ⟨hstart, hpart, hfree⟩ => ⟨?_, hpart, hfree⟩,
      fun ⟨⟨c, rest, hcs, hc⟩, hpart, hfree⟩ => ⟨by simp [hcs, hc], hpart, hfree⟩⟩
    cases cs with
    | nil => cases hstart
    | cons c rest => exact ⟨c, rest, rfl, hstart⟩

instance : DecidablePred IsAttributePath := fun path =>
  inferInstanceAs (Decidable (∀ name ∈ path.toList.splitOn '.', Cel.IsName name))

/-- The pieces of a path. -/
def pathPieces (path : String) : List Piece :=
  word (pathNames path).1 :: Cel.selectPieces (pathNames path).2

/-- The tree of a path. -/
def pathTree (path : String) : Tree :=
  Cel.selectAll (.ident (pathNames path).1) (pathNames path).2

/-- The relation that an operator is, and its symbol, if it is no call. -/
def CompareOperator.celRelation? : CompareOperator → Option (Symbol × Relation)
  | .eq => some (.equalsEquals, .equals)
  | .ne => some (.bangEquals, .notEquals)
  | .lt => some (.less, .less)
  | .le => some (.lessEquals, .lessEquals)
  | .gt => some (.greater, .greater)
  | .ge => some (.greaterEquals, .greaterEquals)
  | .in => some (.in, .in)
  | .pr | .co | .sw | .ew => none

namespace Comparison

/-- The CEL text of a comparison that has the value its operator takes. -/
def celText (c : Comparison) : String :=
  match c.operator.celForm, c.value with
  | .presence, _ => "has(" ++ c.path ++ ")"
  | .relation symbol, some v => c.path ++ " " ++ symbol ++ " " ++ v.text
  | .method name, some v => c.path ++ "." ++ name ++ "(" ++ v.text ++ ")"
  | _, none => ""

/-- The pieces of that text. -/
def celPieces (c : Comparison) : List Piece :=
  match c.operator.celForm, c.operator.celRelation?, c.value with
  | .relation _, some (symbol, _), some v => pathPieces c.path ++ mark symbol :: v.celPieces
  | .method name, _, some v =>
    pathPieces c.path ++
      mark .dot :: word name :: mark .leftParen :: (v.celPieces ++ [mark .rightParen])
  | _, _, _ => word "has" :: mark .leftParen :: (pathPieces c.path ++ [mark .rightParen])

/-- The tree of those pieces. -/
def celTree (c : Comparison) : Tree :=
  match c.operator.celForm, c.operator.celRelation?, c.value with
  | .relation _, some (_, relation), some v => .relation relation (pathTree c.path) v.celTree
  | .method name, _, some v => .methodCall (pathTree c.path) name [v.celTree]
  | _, _, _ => .call "has" [pathTree c.path]

/-- The path is a chain of names, a value is present exactly when the operator
takes one, and its doubles are finite. -/
structure IsExportable (c : Comparison) : Prop where
  path : IsAttributePath c.path
  value_iff : c.value.isSome = true ↔ c.operator ≠ .pr
  finite : ∀ v ∈ c.value, v.FloatsFinite

instance : DecidablePred IsExportable := fun c =>
  decidable_of_iff (IsAttributePath c.path ∧ (c.value.isSome = true ↔ c.operator ≠ .pr) ∧
      ∀ v ∈ c.value, v.FloatsFinite)
    ⟨fun h => ⟨h.1, h.2.1, h.2.2⟩, fun h => ⟨h.path, h.value_iff, h.finite⟩⟩

end Comparison

end PolicyDialects.Filter

namespace PolicyDialects.Cel

open PolicyDialects.Filter
open Text

/-! ## Values -/

mutual

theorem constantValue_celTree (v : Value) : v.celTree.constantValue = .ok v := by
  match v with
  | .string s => rfl
  | .integer i => rfl
  | .float x => rfl
  | .boolean b => rfl
  | .list items =>
    rw [Value.celTree, Tree.constantValue, constantValues_celTrees items]
    rfl

theorem constantValues_celTrees (vs : List Value) :
    Tree.constantValues (Value.celTrees vs) = .ok vs := by
  match vs with
  | [] => rfl
  | v :: vs =>
    rw [Value.celTrees, Tree.constantValues, constantValue_celTree v, constantValues_celTrees vs]
    rfl

end

mutual

theorem readMember_value (v : Value) (h : v.FloatsFinite) : ReadMember v.celPieces v.celTree := by
  match v with
  | .string s => exact readMember_literal (literalValue?_string s)
  | .integer i => exact readMember_literal (literalValue?_integer i)
  | .float x => exact readMember_literal (literalValue?_float h)
  | .boolean b => exact readMember_bool b
  | .list items => exact readMember_list (readItems_values items h (.inr rfl))

theorem readItems_values (vs : List Value) (h : Value.AllFloatsFinite vs) {close : Symbol}
    (hclose : close = .rightParen ∨ close = .rightBracket) :
    ReadItems close (Value.celItemPieces vs) (Value.celTrees vs) := by
  match vs with
  | [] => exact readItems_nil close
  | [v] => exact readItems_one (readMember_value v h.1) hclose
  | v :: w :: vs =>
    have hends : close ∈ exprEnds := by rcases hclose with rfl | rfl <;> decide
    exact readItems_cons (readMember_value v h.1) (readItems_values (w :: vs) h.2 hclose) hends

end

/-- Brackets and commas end literals. -/
theorem endsLiteral_cons {c : Char}
    (h : (isIdentPart c || isQuote c || c == '.' || c == ' ') = false) (cs : List Char) :
    EndsLiteral (c :: cs) := by
  simp only [Bool.or_eq_false_iff] at h
  refine ⟨stops_cons (by simp only [h, Bool.or_false]) cs, fun u cs' heq => ?_⟩
  obtain ⟨rfl, -⟩ := List.cons.inj heq
  simp at h

/-- So does a space, unless the letter behind it makes an unsigned number. -/
theorem endsLiteral_blank {u : Char} (h : u ≠ 'u' ∧ u ≠ 'U') (cs : List Char) :
    EndsLiteral (' ' :: u :: cs) := by
  refine ⟨stops_cons (by decide) _, fun u' cs' heq => ?_⟩
  obtain ⟨-, heq⟩ := List.cons.inj heq
  obtain ⟨rfl, -⟩ := List.cons.inj heq
  exact h

theorem endsLiteral_nil : EndsLiteral [] := ⟨stops_nil _, fun _ _ h => by cases h⟩

/-- Spellings of marks, for use in front of a text. -/
theorem lexes_cons_mark {s : Symbol} {c : Char} (hspelling : s.spelling = [c])
    (hs : s ∈ closedMarks) {rest : List Char} {ps : List Piece} (h : Lexes rest ps) :
    Lexes (c :: rest) (mark s :: ps) := by
  have hmark := lexes_mark hs h
  rw [hspelling] at hmark
  unfold mark
  rw [hspelling]
  exact hmark

mutual

theorem lexes_value (v : Value) (h : v.FloatsFinite) {rest : List Char} {ps : List Piece}
    (hrest : EndsLiteral rest) (hps : Lexes rest ps) :
    Lexes (v.text.toList ++ rest) (v.celPieces ++ ps) := by
  match v with
  | .string s => exact lexes_string s hps
  | .integer i =>
    rw [Value.text, String.toList_ofList]
    exact lexes_integer i.toInt hrest hps
  | .float x =>
    rw [Value.text, Binary64.text, String.toList_ofList]
    exact lexes_float h hrest hps
  | .boolean b =>
    cases b with
    | false => exact lexes_reserved (s := .false) (by decide) hrest.endsName hps
    | true => exact lexes_reserved (s := .true) (by decide) hrest.endsName hps
  | .list items =>
    have hclose : Lexes (']' :: rest) (mark .rightBracket :: ps) :=
      lexes_cons_mark rfl (by decide) hps
    have hitems := lexes_values items h (endsLiteral_cons (by decide) rest) hclose
    have hopen := lexes_cons_mark (s := .leftBracket) rfl (by decide) hitems
    simpa [Value.text, Value.celPieces] using hopen

theorem lexes_values (vs : List Value) (h : Value.AllFloatsFinite vs) {rest : List Char}
    {ps : List Piece} (hrest : EndsLiteral rest) (hps : Lexes rest ps) :
    Lexes ((", ".intercalate (Value.texts vs)).toList ++ rest) (Value.celItemPieces vs ++ ps) := by
  match vs with
  | [] => exact hps
  | [v] => exact lexes_value v h.1 hrest hps
  | v :: w :: vs =>
    have hmore := lexes_values (w :: vs) h.2 hrest hps
    have hcomma := lexes_cons_mark (s := .comma) rfl (by decide) (lexes_blank hmore)
    have hfirst := lexes_value v h.1 (endsLiteral_cons (by decide) _) hcomma
    rw [Value.toList_intercalate_texts]
    simpa [Value.celItemPieces] using hfirst

end

/-! ## Paths -/

/-- The dotted chain of a name and the names after it. -/
def dotted (name : String) (names : List String) : String :=
  names.foldl (fun path name => path ++ "." ++ name) name

theorem toList_dotted (name : String) (names : List String) :
    (dotted name names).toList = name.toList ++ names.flatMap fun n => '.' :: n.toList := by
  induction names generalizing name with
  | nil => simp [dotted]
  | cons n ns ih =>
    have hstep : dotted name (n :: ns) = dotted (name ++ "." ++ n) ns := rfl
    rw [hstep, ih]
    simp

/-- A path is the chain of its names. -/
theorem eq_dotted_of_isAttributePath {path : String} (h : IsAttributePath path) :
    IsName (pathNames path).1.toList ∧ (∀ n ∈ (pathNames path).2, IsName n.toList) ∧
      path = dotted (pathNames path).1 (pathNames path).2 := by
  have hjoin : ['.'].intercalate (path.toList.splitOn '.') = path.toList :=
    List.intercalate_splitOn '.'
  unfold IsAttributePath at h
  unfold pathNames
  obtain ⟨first, more, hsplit⟩ := List.exists_cons_of_ne_nil (List.splitOn_ne_nil '.' path.toList)
  rw [hsplit] at h hjoin ⊢
  refine ⟨by simpa using h first List.mem_cons_self, ?_, ?_⟩
  · intro n hn
    obtain ⟨cs, hcs, rfl⟩ := List.mem_map.mp hn
    rw [String.toList_ofList]
    exact h cs (List.mem_cons_of_mem _ hcs)
  · apply String.toList_inj.mp
    rw [toList_dotted, ← hjoin, intercalate_cons_eq]
    simp [List.flatMap_map]

theorem lexes_selectPieces {names : List String} (h : ∀ n ∈ names, IsName n.toList)
    {rest : List Char} {ps : List Piece} (hrest : EndsName rest) (hps : Lexes rest ps) :
    Lexes ((names.flatMap fun n => '.' :: n.toList) ++ rest) (selectPieces names ++ ps) ∧
      EndsName ((names.flatMap fun n => '.' :: n.toList) ++ rest) := by
  induction names with
  | nil => exact ⟨hps, hrest⟩
  | cons n ns ih =>
    obtain ⟨hmore, hends⟩ := ih fun n hn => h n (List.mem_cons_of_mem _ hn)
    have hn := h n List.mem_cons_self
    have hname := lexes_name hn hends hmore
    have hdot := lexes_dot (hn.stops_isDigit _) hname
    rw [List.flatMap_cons, List.append_assoc, List.cons_append]
    exact ⟨hdot, stops_cons (by decide) _⟩

theorem lexes_path {path : String} (h : IsAttributePath path) {rest : List Char}
    {ps : List Piece} (hrest : EndsName rest) (hps : Lexes rest ps) :
    Lexes (path.toList ++ rest) (pathPieces path ++ ps) := by
  obtain ⟨hfirst, hmore, hpath⟩ := eq_dotted_of_isAttributePath h
  obtain ⟨hselect, hends⟩ := lexes_selectPieces hmore hrest hps
  conv_lhs => rw [hpath]
  rw [toList_dotted, List.append_assoc]
  exact lexes_name hfirst hends hselect

theorem selectPath_selectAll {e : Tree} {path : String} (h : e.selectPath = .ok path)
    (names : List String) : (selectAll e names).selectPath = .ok (dotted path names) := by
  induction names generalizing e path with
  | nil => exact h
  | cons n ns ih =>
    have hselect : (Tree.select e n).selectPath = .ok (path ++ "." ++ n) := by
      rw [Tree.selectPath, h]
      rfl
    exact ih hselect

theorem selectPath_pathTree {path : String} (h : IsAttributePath path) :
    (pathTree path).selectPath = .ok path := by
  obtain ⟨-, -, hpath⟩ := eq_dotted_of_isAttributePath h
  conv_rhs => rw [hpath]
  exact selectPath_selectAll rfl _

theorem readMember_pathTree (path : String) : ReadMember (pathPieces path) (pathTree path) :=
  readMember_path _ _

/-! ## Comparisons -/

/-- What CEL makes of a comparison: a presence test, a relation, or a call. -/
inductive CelShape (c : Comparison) : Prop where
  | presence (hop : c.operator = .pr) (hvalue : c.value = none)
  | relation (v : Value) (symbol : String) (s : Symbol) (r : Relation) (hvalue : c.value = some v)
      (hform : c.operator.celForm = .relation symbol)
      (hrelation : c.operator.celRelation? = some (s, r)) (hsymbol : symbol.toList = s.spelling)
      (hs : s ∈ relations) (hrel : Level.rel (.symbol s) = some (.relation r))
      (hop : Tree.relationOperator r = c.operator)
  | method (v : Value) (name : String) (hvalue : c.value = some v)
      (hform : c.operator.celForm = .method name)
      (hop : Tree.methodOperator? name = some c.operator) (hname : IsName name.toList)

theorem isName_of_methodOperator? {name : String} {op : CompareOperator}
    (h : Tree.methodOperator? name = some op) : IsName name.toList := by
  unfold Tree.methodOperator? at h
  split_ifs at h with h1 h2 h3
  · subst h1; exact ⟨⟨_, _, rfl, by decide⟩, by decide, by decide⟩
  · subst h2; exact ⟨⟨_, _, rfl, by decide⟩, by decide, by decide⟩
  · subst h3; exact ⟨⟨_, _, rfl, by decide⟩, by decide, by decide⟩

theorem celShape {c : Comparison} (hc : c.value.isSome = true ↔ c.operator ≠ .pr) :
    CelShape c := by
  obtain ⟨path, op, value⟩ := c
  cases value with
  | none =>
    have hop : op = .pr := by simpa using hc
    exact .presence hop rfl
  | some v =>
    have hop : op ≠ .pr := by simpa using hc
    have hmethod : ∀ {name : String}, op.celForm = .method name →
        Tree.methodOperator? name = some op → CelShape ⟨path, op, some v⟩ :=
      fun hform h => .method v _ rfl hform h (isName_of_methodOperator? h)
    cases op
    case pr => exact absurd rfl hop
    case co => exact hmethod rfl (by decide)
    case sw => exact hmethod rfl (by decide)
    case ew => exact hmethod rfl (by decide)
    all_goals exact .relation v _ _ _ rfl rfl rfl (by decide) (by decide) rfl rfl

/-- The text of a comparison is what export gives. -/
theorem toCel_identity {c : Comparison} (hc : c.value.isSome = true ↔ c.operator ≠ .pr) :
    c.toCel .identity = .ok c.celText := by
  have hpath : NameMap.identity.resolveProvider c.path = .ok c.path :=
    NameMap.resolve_identity _ c.path
  unfold Comparison.toCel Comparison.celText
  rw [hpath]
  cases celShape hc with
  | presence hop hvalue => rw [hop]; rfl
  | relation v symbol s r hvalue hform => rw [hform, hvalue]; rfl
  | method v name hvalue hform => rw [hform, hvalue]; rfl

/-- The tree of a comparison makes it. -/
theorem comparison?_celTree {c : Comparison} (hc : c.IsExportable) :
    c.celTree.comparison? = some c := by
  have hpath := selectPath_pathTree hc.path
  obtain ⟨path, op, value⟩ := c
  unfold Comparison.celTree
  cases celShape hc.value_iff with
  | presence hop hvalue =>
    dsimp only at hop hvalue hpath ⊢
    subst hop hvalue
    show Tree.comparison? (.call "has" [pathTree path]) = _
    simp [Tree.comparison?, hpath, Except.toOption, Comparison.present]
  | relation v symbol s r hvalue hform hrelation hsymbol hs hrel hop =>
    dsimp only at hvalue hform hrelation hop hpath ⊢
    subst hvalue
    rw [hform, hrelation]
    simp [Tree.comparison?, hpath, constantValue_celTree, Except.toOption, Comparison.with, hop]
  | method v name hvalue hform hop =>
    dsimp only at hvalue hform hop hpath ⊢
    subst hvalue
    rw [hform]
    simp [Tree.comparison?, hpath, constantValue_celTree, Except.toOption, Comparison.with, hop]

theorem exists_start_path {path : String} (h : IsAttributePath path) :
    ∃ c cs, path.toList = c :: cs ∧ isIdentStart c = true := by
  obtain ⟨hfirst, -, hpath⟩ := eq_dotted_of_isAttributePath h
  obtain ⟨c, cs, hcs, hc⟩ := hfirst.start
  refine ⟨c, cs ++ (pathNames path).2.flatMap fun n => '.' :: n.toList, ?_, hc⟩
  conv_lhs => rw [hpath, toList_dotted, hcs]
  rfl

theorem isIdentPart_of_mem_path {path : String} (h : IsAttributePath path) {c : Char}
    (hc : c ∈ path.toList) : c = '.' ∨ isIdentPart c = true := by
  obtain ⟨hfirst, hmore, hpath⟩ := eq_dotted_of_isAttributePath h
  rw [hpath, toList_dotted, List.mem_append, List.mem_flatMap] at hc
  rcases hc with hc | ⟨name, hname, hc⟩
  · exact .inr (hfirst.part c hc)
  · rcases List.mem_cons.mp hc with rfl | hc
    · exact .inl rfl
    · exact .inr ((hmore name hname).part c hc)

/-- The text of a comparison starts as its path does, or with `has`. -/
theorem stops_celText {c : Comparison} {p : Char → Bool}
    (hc : c.value.isSome = true ↔ c.operator ≠ .pr)
    (hpath : ∀ cs, Stops p (c.path.toList ++ cs)) (hhas : p 'h' = false) (rest : List Char) :
    Stops p (c.celText.toList ++ rest) := by
  unfold Comparison.celText
  cases celShape hc with
  | presence hop hvalue =>
    have hstart : ("has(" ++ c.path ++ ")").toList ++ rest =
        'h' :: ("as(".toList ++ (c.path.toList ++ ')' :: rest)) := by simp
    rw [hop]
    show Stops p (("has(" ++ c.path ++ ")").toList ++ rest)
    rw [hstart]
    exact stops_cons hhas _
  | relation v symbol s r hvalue hform =>
    rw [hform, hvalue]
    simpa using hpath _
  | method v name hvalue hform =>
    rw [hform, hvalue]
    simpa using hpath _

theorem celPieces_ne_nil (c : Comparison) : c.celPieces ≠ [] := by
  unfold Comparison.celPieces
  split <;> simp [pathPieces]

/-- Presence tests and calls are operands. -/
theorem readMember_comparison {c : Comparison} (hc : c.IsExportable)
    (hcall : c.operator.isCall = true) : ReadMember c.celPieces c.celTree := by
  have hpath := readMember_pathTree c.path
  unfold Comparison.celPieces Comparison.celTree
  cases celShape hc.value_iff with
  | presence hop hvalue =>
    rw [hop]
    exact readMember_call (readItems_one hpath (.inl rfl))
  | relation v symbol s r hvalue hform =>
    simp only [CompareOperator.isCall, hform] at hcall
    cases hcall
  | method v name hvalue hform =>
    rw [hform, hvalue]
    have hvalue := readMember_value v (hc.finite v hvalue)
    exact readMember_methodCall (readItems_one hvalue (.inl rfl))

/-- Every comparison is an operand of `&&` and `||`. -/
theorem readComparison_comparison {c : Comparison} (hc : c.IsExportable) :
    ReadComparison c.celPieces c.celTree := by
  by_cases hcall : c.operator.isCall = true
  · exact (readMember_comparison hc hcall).readUnary.readComparison
  · unfold Comparison.celPieces Comparison.celTree
    cases celShape hc.value_iff with
    | presence hop hvalue => exact absurd (by rw [hop]; rfl) hcall
    | relation v symbol s r hvalue hform hrelation hsymbol hs hrel =>
      rw [hform, hrelation, hvalue]
      have hvalue := readMember_value v (hc.finite v hvalue)
      exact readComparison_relation hs hrel (readMember_pathTree c.path).readUnary hvalue.readUnary
    | method v name hvalue hform =>
      exact absurd (by simp only [CompareOperator.isCall, hform]) hcall

/-- A relation in front of a text that a blank separates from it. -/
theorem leads_relation {s : Symbol} (hs : s ∈ relations) (cs : List Char) :
    Leads (.symbol s) s.spelling (' ' :: cs) := by
  have hcases : s ∈ closedMarks ∨ s ∈ openMarks ∨ s ∈ Symbol.words := by
    revert s; decide
  rcases hcases with hs | hs | hs
  · exact leads_mark hs _
  · exact leads_openMark hs (stops_cons (by decide) _)
  · exact leads_reserved hs (stops_cons (by decide) _)

/-- A call with its argument, after the name that is called. -/
theorem lexes_arguments {cs rest : List Char} {qs ps : List Piece}
    (harg : ∀ {rest : List Char} {ps : List Piece}, EndsLiteral rest → Lexes rest ps →
      Lexes (cs ++ rest) (qs ++ ps)) (hps : Lexes rest ps) :
    Lexes ('(' :: (cs ++ ')' :: rest)) (mark .leftParen :: (qs ++ mark .rightParen :: ps)) := by
  have hclose := lexes_cons_mark (s := .rightParen) rfl (by decide) hps
  have hinner := harg (endsLiteral_cons (by decide) rest) hclose
  exact lexes_cons_mark (s := .leftParen) rfl (by decide) hinner

theorem isName_has : IsName "has".toList := ⟨⟨_, _, rfl, by decide⟩, by decide, by decide⟩

/-- The text of a comparison is cut into its pieces. -/
theorem lexes_comparison {c : Comparison} (hc : c.IsExportable) {rest : List Char}
    {ps : List Piece} (hrest : EndsLiteral rest) (hps : Lexes rest ps) :
    Lexes (c.celText.toList ++ rest) (c.celPieces ++ ps) := by
  unfold Comparison.celText Comparison.celPieces
  cases celShape hc.value_iff with
  | presence hop hvalue =>
    have hargs := lexes_arguments
      (fun hrest hps => lexes_path hc.path hrest.endsName hps) hps
    have hcall := lexes_name isName_has (stops_cons (by decide) _) hargs
    rw [hop]
    simpa [CompareOperator.celForm, word] using hcall
  | relation v symbol s r hvalue hform hrelation hsymbol hs =>
    have hlast := lexes_value v (hc.finite v hvalue) hrest hps
    have hmark := lexes_blank (lexes_token (leads_relation hs _) (lexes_blank hlast))
    have hfirst := lexes_path hc.path (stops_cons (by decide) _) hmark
    rw [hform, hrelation, hvalue]
    simpa [hsymbol, mark] using hfirst
  | method v name hvalue hform hop hname =>
    have hargs := lexes_arguments
      (fun hrest hps => lexes_value v (hc.finite v hvalue) hrest hps) hps
    have hcall := lexes_name hname (stops_cons (by decide) _) hargs
    have hdot := lexes_dot (hname.stops_isDigit _) hcall
    have hfirst := lexes_path hc.path (stops_cons (by decide) _) hdot
    rw [hform, hvalue]
    simpa [mark, word, Symbol.spelling] using hfirst

/-! ## Comparisons that were read -/

theorem splitOn_name {name : String} (h : IsName name.toList) :
    name.toList.splitOn '.' = [name.toList] := by
  have hdot : ∀ cs ∈ [name.toList], '.' ∉ cs := by
    intro cs hcs hmem
    obtain rfl := List.mem_singleton.mp hcs
    exact absurd (h.part _ hmem) (by decide)
  have hsplit := List.splitOn_intercalate '.' hdot (List.cons_ne_nil _ _)
  rwa [List.intercalate_singleton] at hsplit

/-- The path of an expression that was read is a chain of names. -/
theorem isAttributePath_selectPath {e : Tree} (hnamed : e.Named) {path : String}
    (h : e.selectPath = .ok path) : IsAttributePath path := by
  induction hnamed generalizing path with
  | ident hname =>
    cases h
    unfold IsAttributePath
    rw [splitOn_name hname]
    exact List.forall_mem_singleton.mpr hname
  | @select e name _ hname ih =>
    obtain ⟨front, hfront, h⟩ := bind_eq_ok.mp h
    cases h
    have hsplit : (front ++ "." ++ name).toList.splitOn '.' =
        front.toList.splitOn '.' ++ [name.toList] := by
      have happend : (front ++ "." ++ name).toList = front.toList ++ '.' :: name.toList := by simp
      rw [← splitOn_name hname, happend]
      exact List.splitOnP_append_cons _ _ (by simp)
    unfold IsAttributePath
    rw [hsplit]
    exact List.forall_mem_append.mpr ⟨ih hfront, List.forall_mem_singleton.mpr hname⟩
  | _ => cases h

theorem isAttributePath_of_comparison? {t : Tree} {c : Comparison} (h : t.comparison? = some c)
    (hnamed : t.Named) : IsAttributePath c.path := by
  rcases Tree.comparison?_eq_some h with ⟨_, _, _, _, _, rfl, hpath, -, rfl⟩ |
    ⟨_, _, rfl, hpath, rfl⟩ | ⟨_, _, _, _, _, _, rfl, -, hpath, -, rfl⟩
  · cases hnamed with
    | relation hl _ => exact isAttributePath_selectPath hl hpath
  · cases hnamed with
    | call _ hargs => exact isAttributePath_selectPath (hargs _ List.mem_cons_self) hpath
  · cases hnamed with
    | methodCall hreceiver _ _ => exact isAttributePath_selectPath hreceiver hpath

/-- Every comparison of a condition that was read can be exported again. -/
theorem Tree.Imports.each_isExportable {u : Bool} {t : Tree} {e : Expression}
    (h : Tree.Imports u t e) (hnamed : t.Named) (hfinite : t.FloatsFinite) :
    e.Each (fun _ => False) Comparison.IsExportable :=
  ((h.each_isLexical hnamed hfinite).and (h.each isAttributePath_of_comparison? hnamed)).imp
    (fun _ hp => hp.1) fun _ hc => ⟨hc.2, hc.1.value_iff, hc.1.finite⟩

end PolicyDialects.Cel
