import PolicyDialects.Proofs.Cel.Scan
import PolicyDialects.Proofs.Cel.Spelling

/-!
# Texts that pass the scan

How the text of a path or of a constant is cut into tokens is not known before
the text is. But if what comes out passes the scan, the path is a chain of
names, and the constant is one that can be read.

Results:

* `Accepts.path`: a path that passes the scan is a dotted chain of names.
* `Accepts.value`: the doubles of a value that passes the scan are finite.
* `Accepts.comparison`: a comparison that passes the scan can be exported.
-/

namespace PolicyDialects.Cel

open Text
open PolicyDialects.Filter (Comparison CompareOperator IsAttributePath IsUnbroken Value)

/-- The text has no line break, so that a comment reaches up to its end. -/
abbrev OneLine (cs : List Char) : Prop := ∀ c ∈ cs, c ≠ '\n' ∧ c ≠ '\r'

/-- The text is on one line, and its lexemes lead the scan from a place to the
end of a condition. -/
structure Accepts (s : Place) (cs : List Char) : Prop where
  line : OneLine cs
  scans : ∃ offset last ts finish, lexemesFrom offset last cs = (ts, .complete finish) ∧
    s.scan (ts.map Lexeme.piece) = some .tail

/-! ## First tokens -/

section

variable {s s' : Place} {cs text rest : List Char} {token : Token}

theorem Accepts.eq_tail (h : Accepts s []) : s = .tail := by
  obtain ⟨-, offset, last, ts, finish, hts, hscan⟩ := h
  rw [lexemesFrom] at hts
  cases hts
  exact Option.some.inj hscan

theorem Accepts.blank {c : Char} (h : Accepts s (c :: cs)) (hc : isBlank c = true) :
    Accepts s cs := by
  obtain ⟨hline, offset, last, ts, finish, hts, hscan⟩ := h
  rw [lexemesFrom_blank hc] at hts
  exact ⟨(List.forall_mem_cons.mp hline).2, _, _, ts, finish, hts, hscan⟩

/-- A token in front of a text stands where the scan lets it. -/
theorem Accepts.leads (h : Accepts s (text ++ rest)) (hleads : Leads token text rest) :
    ∃ s', s.next (token, text) = some s' ∧ Accepts s' rest := by
  obtain ⟨hline, offset, last, ts, finish, hts, hscan⟩ := h
  rw [hleads.lexemesFrom_eq] at hts
  obtain ⟨rfl, hending⟩ := Prod.mk.inj hts
  rw [List.map_cons, Place.scan_cons] at hscan
  obtain ⟨s', hnext, hscan⟩ := Option.bind_eq_some_iff.mp hscan
  exact ⟨s', hnext, (List.forall_mem_append.mp hline).2, _, _, _, finish,
    Prod.ext rfl hending, hscan⟩

theorem Accepts.leads_to (h : Accepts s (text ++ rest)) (hleads : Leads token text rest)
    (hnext : s.next (token, text) = some s') : Accepts s' rest := by
  obtain ⟨s₁, hs₁, haccepts⟩ := h.leads hleads
  obtain rfl : s₁ = s' := Option.some.inj (hs₁.symm.trans hnext)
  exact haccepts

/-- A mark of one character in front of a text. -/
theorem Accepts.mark {c : Char} {m : Symbol} (h : Accepts s (c :: rest))
    (hspelling : m.spelling = [c]) (hm : m ∈ closedMarks) (hnext : s.next (Cel.mark m) = some s') :
    Accepts s' rest := by
  have hleads := leads_mark hm rest
  rw [Cel.mark, hspelling] at hnext
  rw [hspelling] at hleads
  exact h.leads_to hleads hnext

/-- A logical operator between blanks. -/
theorem Accepts.operator {m : Symbol} (h : Accepts .tail (' ' :: (m.spelling ++ ' ' :: rest)))
    (hm : m ∈ closedMarks) (hnext : Place.next .tail (Cel.mark m) = some .operand) :
    Accepts .operand rest :=
  ((h.blank (by decide)).leads_to (leads_mark hm _) hnext).blank (by decide)

theorem not_accepts (hleads : Leads token text rest) (hnext : s.next (token, text) = none) :
    ¬Accepts s (text ++ rest) := by
  intro h
  obtain ⟨s', hs', -⟩ := h.leads hleads
  rw [hnext] at hs'
  cases hs'

/-- A comment on one line hides all that follows. -/
theorem drop_commentLength {cs : List Char} (h : commentLength cs ≠ 0)
    (hline : OneLine cs) : cs.drop (commentLength cs) = [] := by
  unfold commentLength at h ⊢
  split at h
  · rename_i rest
    have hrest : ∀ c ∈ rest, (c != '\n' && c != '\r') = true := by
      intro c hc
      simpa using hline c (List.mem_cons_of_mem _ (List.mem_cons_of_mem _ hc))
    have hrun := run_append hrest (stops_nil _)
    rw [List.append_nil] at hrun
    dsimp only
    rw [List.drop_eq_nil_iff, hrun]
    simp only [List.length_cons]
    omega
  · exact absurd rfl h

/-- Where a path stands, a text starts with a token that the scan lets stand
there. -/
theorem Accepts.first (h : Accepts s cs) (hs : s ≠ .tail) (hblank : Stops isBlank cs) :
    ∃ token n s', tokenAt cs = (token, n) ∧ n ≠ 0 ∧ s.next (token, cs.take n) = some s' ∧
      Accepts s' (cs.drop n) := by
  cases cs with
  | nil => exact absurd h.eq_tail hs
  | cons c cs =>
    obtain ⟨hline, offset, last, ts, finish, hts, hscan⟩ := h
    have hdrop : ∀ {n : Nat}, n ≠ 0 → cs.drop (n - 1) = (c :: cs).drop n := by
      intro n hn
      obtain ⟨m, rfl⟩ := Nat.exists_eq_succ_of_ne_zero hn
      rfl
    rw [lexemesFrom] at hts
    generalize tokenAt (c :: cs) = first at hts ⊢
    obtain ⟨token, n⟩ := first
    dsimp only at hts
    split_ifs at hts with hcomment hblanks hn
    · rw [hdrop hcomment, drop_commentLength hcomment hline, lexemesFrom] at hts
      cases hts
      exact absurd (Option.some.inj hscan) hs
    · exact absurd (run_of_stops hblank) hblanks
    · cases hts
    · obtain ⟨rfl, hending⟩ := Prod.mk.inj hts
      rw [List.map_cons, Place.scan_cons] at hscan
      obtain ⟨s', hnext, hscan⟩ := Option.bind_eq_some_iff.mp hscan
      rw [hdrop hn] at hscan hending
      have haccepts : Accepts s' ((c :: cs).drop n) :=
        ⟨fun x hx => hline x (List.mem_of_mem_drop hx), _, _, _, finish, Prod.ext rfl hending, hscan⟩
      exact ⟨token, n, s', rfl, hn, hnext, haccepts⟩

end

/-! ## Tokens of paths -/

/-- The text of a symbol is its spelling. -/
theorem take_of_tokenAt {cs : List Char} {s : Symbol} {n : Nat} (h : tokenAt cs = (.symbol s, n)) :
    cs.take n = s.spelling := by
  unfold tokenAt at h
  generalize hbest : longest (shapes cs) = best at h
  obtain ⟨token, length⟩ := best
  have hnone : token ≠ .symbol s := by
    have hmem := mem_foldl_longer (shapes cs) (.ident, 0)
    rw [show (shapes cs).foldl longer (.ident, 0) = (token, length) from hbest] at hmem
    rintro rfl
    simp [shapes] at hmem
  dsimp only at h
  split at h
  · rename_i word hword
    obtain ⟨hs, rfl⟩ := Prod.mk.inj h
    obtain rfl := Token.symbol.inj hs
    have hspelled := List.find?_some hword
    exact (of_decide_eq_true hspelled).2.symm
  · split at h
    · rename_i mark hmark
      split_ifs at h
      · obtain ⟨hs, rfl⟩ := Prod.mk.inj h
        obtain rfl := Token.symbol.inj hs
        have hspelled := List.find?_some hmark
        exact (List.prefix_iff_eq_take.mp (List.isPrefixOf_iff_prefix.mp hspelled)).symm
      · exact absurd (congrArg Prod.fst h) hnone
    · exact absurd (congrArg Prod.fst h) hnone

/-- Behind the name that a token takes, the text goes on with something else. -/
theorem stops_drop_identLength {cs : List Char} (h : identLength cs ≠ 0) :
    Stops isIdentPart (cs.drop (identLength cs)) := by
  cases cs with
  | nil => exact absurd rfl h
  | cons c cs =>
    unfold identLength at h ⊢
    dsimp only at h ⊢
    split_ifs at h ⊢ with hc
    · have hdrop : (c :: cs).drop (1 + run isIdentPart cs) = cs.dropWhile isIdentPart := by
        have happend : (cs.takeWhile isIdentPart ++ cs.dropWhile isIdentPart).drop
            (cs.takeWhile isIdentPart).length = cs.dropWhile isIdentPart := List.drop_left
        rw [List.takeWhile_append_dropWhile] at happend
        rw [Nat.add_comm, List.drop_succ_cons, run, happend]
      rw [hdrop]
      exact stops_dropWhile _ _
    · exact absurd rfl h

/-! ## Paths -/

/-- A character of a word that is no sign of a relation. -/
def IsPathChar (c : Char) : Prop :=
  Filter.isDelimiter c = false ∧ c ≠ '=' ∧ c ≠ '<' ∧ c ≠ '>'

/-- What stands behind a path in a condition. -/
def BehindPath (rest : List Char) : Prop :=
  ∃ c cs, rest = c :: cs ∧ (c = ' ' ∨ c = '.' ∨ c = ')')

section

variable {s : Place} {w rest : List Char}

theorem isBlank_of_isPathChar {c : Char} (h : IsPathChar c) : isBlank c = false := by
  have hdelimiter := h.1
  simp only [Filter.isDelimiter, Bool.or_eq_false_iff] at hdelimiter
  exact hdelimiter.1.1.1.1.1.1

/-- A name of a path, up to where something else stands. -/
theorem Accepts.name (h : Accepts s (w ++ rest)) (hs : s = .operand ∨ s = .member) (hw : w ≠ [])
    (hstart : s = .operand → ∀ c ∈ w.head?, c ≠ '!' ∧ c ≠ '.') (hchars : ∀ c ∈ w, IsPathChar c)
    (hrest : BehindPath rest) :
    ∃ name w' test, w = name ++ w' ∧ IsName name ∧ Stops isIdentPart (w' ++ rest) ∧
      Accepts (.name test) (w' ++ rest) := by
  have hblank : Stops isBlank (w ++ rest) := by
    obtain ⟨c, cs, rfl⟩ := List.exists_cons_of_ne_nil hw
    exact stops_cons (isBlank_of_isPathChar (hchars c List.mem_cons_self)) _
  have htail : s ≠ .tail := by
    rcases hs with rfl | rfl <;> decide
  obtain ⟨token, n, s', htoken, hn, hnext, haccepts⟩ := h.first htail hblank
  cases token with
  | literal kind => rcases hs with rfl | rfl <;> cases hnext
  | symbol sym =>
    rcases hs with rfl | rfl
    · have htake := take_of_tokenAt htoken
      obtain ⟨c, cs, rfl⟩ := List.exists_cons_of_ne_nil hw
      obtain ⟨n, rfl⟩ := Nat.exists_eq_succ_of_ne_zero hn
      rw [List.cons_append, List.take_succ_cons] at htake
      have hc := hstart rfl c rfl
      have hparen : c ≠ '(' := by
        rintro rfl
        exact absurd (hchars _ List.mem_cons_self).1 (by decide)
      simp only [Place.next] at hnext
      split_ifs at hnext with hdot hopen
      · subst hdot
        exact absurd (List.cons.inj htake).1 hc.2
      · rcases hopen with rfl | rfl | rfl
        · exact absurd (List.cons.inj htake).1 hparen
        · exact absurd (List.cons.inj htake).1 hc.1
        · exact absurd (List.cons.inj htake).1 hc.1
    · cases hnext
  | ident =>
    obtain ⟨rfl, -⟩ := eq_identLength_of_tokenAt htoken hn
    have hname := isName_of_tokenAt htoken hn
    have hstops := stops_drop_identLength hn
    have hle : identLength (w ++ rest) ≤ w.length := by
      by_contra hlt
      obtain ⟨c, cs, rfl, hc⟩ := hrest
      have hmem : c ∈ (w ++ c :: cs).take (identLength (w ++ c :: cs)) := by
        generalize identLength (w ++ c :: cs) = n at hlt ⊢
        obtain ⟨k, rfl⟩ : ∃ k, n = w.length + (k + 1) := ⟨n - w.length - 1, by omega⟩
        rw [List.take_length_add_append, List.take_succ_cons]
        exact List.mem_append_right _ List.mem_cons_self
      have hpart := hname.part c hmem
      rcases hc with rfl | rfl | rfl <;> revert hpart <;> decide
    rw [List.take_append_of_le_length hle] at hname
    rw [List.drop_append_of_le_length hle] at hstops haccepts
    have htest : ∃ test, s' = .name test := by
      rcases hs with rfl | rfl <;> exact ⟨_, (Option.some.inj hnext).symm⟩
    obtain ⟨test, rfl⟩ := htest
    exact ⟨w.take _, w.drop _, test, (List.take_append_drop _ _).symm, hname, hstops, haccepts⟩

theorem headD_spelling_of_mem_pathEnds : ∀ s ∈ Symbol.leftParen :: Place.pathEnds,
    s.spelling = ['!', '='] ∨ Filter.isDelimiter (s.spelling.headD ' ') = true ∨
      s.spelling.headD ' ' ∈ ['=', '<', '>'] ∨ isIdentPart (s.spelling.headD ' ') = true := by
  decide

/-- Behind a name, a path goes on with a point. -/
theorem Accepts.point {test : Bool} {c : Char} (h : Accepts (.name test) (c :: (w ++ rest)))
    (hc : isIdentPart c = false) (hchars : ∀ x ∈ c :: w, IsPathChar x) (hrest : BehindPath rest) :
    c = '.' ∧ Accepts .member (w ++ rest) := by
  obtain ⟨hplain, hmore⟩ := List.forall_mem_cons.mp hchars
  obtain ⟨token, n, s', htoken, hn, hnext, haccepts⟩ :=
    h.first (by simp) (stops_cons (isBlank_of_isPathChar hplain) _)
  obtain ⟨n, rfl⟩ := Nat.exists_eq_succ_of_ne_zero hn
  cases token with
  | literal kind => cases hnext
  | ident => cases hnext
  | symbol sym =>
    have htake := take_of_tokenAt htoken
    rw [List.take_succ_cons] at htake
    have hequals : (w ++ rest).head? ≠ some '=' := by
      cases w with
      | nil =>
        obtain ⟨d, ds, rfl, hd⟩ := hrest
        rcases hd with rfl | rfl | rfl <;> simp
      | cons d ds => simpa using (hmore d List.mem_cons_self).2.1
    by_cases hdot : sym = .dot
    · subst hdot
      obtain ⟨rfl, htake'⟩ := List.cons.inj htake
      obtain rfl : n = 0 := by
        by_contra hn
        rw [List.take_eq_nil_iff] at htake'
        obtain ⟨d, ds, rfl, -⟩ := hrest
        simp [hn] at htake'
      obtain rfl := Option.some.inj hnext
      exact ⟨rfl, haccepts⟩
    · have hend : sym ∈ Symbol.leftParen :: Place.pathEnds := by
        simp only [Place.next, if_neg hdot] at hnext
        by_contra hnone
        rw [List.mem_cons, not_or] at hnone
        simp [hnone] at hnext
      exfalso
      rcases headD_spelling_of_mem_pathEnds sym hend with hspelling | hhead
      · -- the equals sign of `!=` would stand in the path or behind it
        rw [hspelling] at htake
        have htake' := (List.cons.inj htake).2
        cases n with
        | zero => cases htake'
        | succ n =>
          generalize w ++ rest = cs at hequals htake'
          cases cs with
          | nil => cases htake'
          | cons d ds => exact hequals (congrArg some (List.cons.inj htake').1)
      · rw [← htake, List.headD_cons, hplain.1, hc] at hhead
        simp [hplain.2] at hhead

/-- A path is a chain of names with points between them. -/
theorem Accepts.names (h : Accepts s (w ++ rest)) (hs : s = .operand ∨ s = .member) (hw : w ≠ [])
    (hstart : s = .operand → ∀ c ∈ w.head?, c ≠ '!' ∧ c ≠ '.') (hchars : ∀ c ∈ w, IsPathChar c)
    (hrest : BehindPath rest) (hmember : ¬Accepts .member rest) :
    (∀ name ∈ w.splitOn '.', IsName name) ∧ ∃ test, Accepts (.name test) rest := by
  induction hlength : w.length using Nat.strongRecOn generalizing s w with
  | ind length ih =>
  obtain ⟨name, w', test, rfl, hname, hstops, haccepts⟩ := h.name hs hw hstart hchars hrest
  have hsplit : name.splitOn '.' = [name] := by
    have hself := @splitOn_name (String.ofList name) (by rwa [String.toList_ofList])
    rwa [String.toList_ofList] at hself
  cases w' with
  | nil => exact ⟨by simpa [hsplit] using hname, test, haccepts⟩
  | cons c w' =>
    have hchars' := (List.forall_mem_append.mp hchars).2
    obtain ⟨rfl, hmore⟩ := haccepts.point (hstops c rfl) hchars' hrest
    have hw' : w' ≠ [] := by
      rintro rfl
      exact hmember hmore
    have hlt : w'.length < length := by
      rw [← hlength, List.length_append, List.length_cons]
      omega
    obtain ⟨hnames, htest⟩ := ih _ hlt hmore (.inr rfl) hw' (fun hf => by cases hf)
      (List.forall_mem_cons.mp hchars').2 rfl
    have happend : (name ++ '.' :: w').splitOn '.' = name.splitOn '.' ++ w'.splitOn '.' :=
      List.splitOnP_append_cons _ _ (by simp)
    rw [happend, hsplit]
    exact ⟨List.forall_mem_append.mpr ⟨List.forall_mem_singleton.mpr hname, hnames⟩, htest⟩

/-- The path has no sign of a relation in it, and it starts with neither `!` nor
a point. -/
structure IsPlainPath (path : String) : Prop where
  free : ∀ c ∈ path.toList, c ≠ '=' ∧ c ≠ '<' ∧ c ≠ '>'
  start : ∀ c ∈ path.toList.head?, c ≠ '!' ∧ c ≠ '.'

-- the first character is tested as it is, not by a run over all characters
instance : DecidablePred IsPlainPath := fun path =>
  decidable_of_iff ((∀ c ∈ path.toList, c ≠ '=' ∧ c ≠ '<' ∧ c ≠ '>') ∧
      path.toList.head?.all (fun c => c != '!' && c != '.') = true) <| by
    constructor
    · rintro ⟨hfree, hstart⟩
      exact ⟨hfree, fun c hc => by simpa [Option.mem_def.mp hc] using hstart⟩
    · intro h
      refine ⟨h.free, ?_⟩
      cases hhead : path.toList.head? with
      | none => rfl
      | some c => simpa using h.start c hhead

theorem Accepts.path {path : String} (h : Accepts .operand (path.toList ++ rest))
    (hword : IsUnbroken path) (hplain : IsPlainPath path) (hrest : BehindPath rest)
    (hmember : ¬Accepts .member rest) :
    IsAttributePath path ∧ ∃ test, Accepts (.name test) rest :=
  h.names (.inl rfl) hword.1 (fun _ => hplain.start) (fun c hc => ⟨hword.2 c hc, hplain.free c hc⟩)
    hrest hmember

/-! ## Constants -/

/-- A minus sign in front of a letter is no part of a number. -/
theorem leads_minus {c : Char} (hc : isIdentStart c = true) (cs : List Char) :
    Leads (.symbol .minus) ['-'] (c :: cs) := by
  have hdigit := isDigit_of_isIdentStart hc
  have hrun : run isDigit (c :: cs) = 0 := run_cons_of_neg hdigit _
  have hne : ∀ {d : Char}, isIdentStart d = false → c ≠ d := fun hd => ne_of_isIdentStart hc hd
  have hint : intLength ('-' :: c :: cs) = 0 := by
    show (if run isDigit (c :: cs) = 0 then 0 else _) = 0
    rw [if_pos hrun]
  have hhex : hexLength ('-' :: c :: cs) = 0 := by
    have hdrop : ('-' :: c :: cs).drop (minusLength ('-' :: c :: cs)) = c :: cs := rfl
    unfold hexLength
    simp only [hdrop]
    split
    · rename_i heq
      exact absurd (List.cons.inj heq).1 (hne (by decide))
    · rfl
  have hfloat : floatLength ('-' :: c :: cs) = 0 := by
    unfold floatLength
    simp only [signLength, List.drop_one, List.tail_cons, hrun, Nat.add_zero]
    split
    · rename_i heq
      exact absurd (List.cons.inj heq).1 (hne (by decide))
    · simp
  have hlongest : longest (shapes ('-' :: c :: cs)) = (.ident, 0) := by
    unfold shapes
    rw [hint, hhex, unsignedLength_zero, hfloat, quotedLength_of_head (by decide) (by decide),
      letteredLength_of_head (by decide) (by decide), letteredLength_of_head (by decide) (by decide),
      identLength_of_head (by decide)]
    rfl
  have hsymbol : symbolAt? ('-' :: c :: cs) = some .minus := by
    simp [symbolAt?, Symbol.marks, Symbol.spelling, List.isPrefixOf, (hne (by decide) : c ≠ '-').symm]
  refine ⟨⟨'-', [], rfl, by decide, by decide⟩, ?_⟩
  unfold tokenAt
  rw [List.singleton_append, hlongest, hsymbol]
  rfl

/-- The double is a number. -/
theorem Accepts.float {x : Binary64} (h : Accepts .tail (x.chars ++ rest))
    (hrest : EndsLiteral rest) : x.IsFinite ∧ Accepts .tail rest := by
  -- what is no number is written as a name, which is no part of a constant
  have hname : ∀ {w : List Char}, IsName w → ¬Accepts .tail (w ++ rest) := fun hw =>
    not_accepts (leads_name hw hrest.endsName) rfl
  have hinf : IsName "inf".toList := ⟨⟨_, _, rfl, by decide⟩, by decide, by decide⟩
  have hnan : IsName "NaN".toList := ⟨⟨_, _, rfl, by decide⟩, by decide, by decide⟩
  cases x with
  | nan => exact absurd h (hname hnan)
  | infinite negative =>
    cases negative with
    | false => exact absurd h (hname hinf)
    | true =>
      have hminus : Accepts .tail (['-'] ++ ("inf".toList ++ rest)) := h
      exact absurd (hminus.leads_to (leads_minus (by decide) _) rfl) (hname hinf)
  | finite negative units fits =>
    have hfinite : (Binary64.finite negative units fits).IsFinite := trivial
    exact ⟨hfinite, h.leads_to (leads_float hfinite hrest) rfl⟩

mutual

/-- The doubles of a constant are numbers. -/
theorem Accepts.value (v : Value) {rest : List Char} (h : Accepts .tail (v.text.toList ++ rest))
    (hrest : EndsLiteral rest) : v.FloatsFinite ∧ Accepts .tail rest := by
  revert h
  match v with
  | .string s =>
    intro h
    exact ⟨trivial, h.leads_to (leads_string s rest) rfl⟩
  | .integer i =>
    intro h
    rw [Value.text, String.toList_ofList] at h
    exact ⟨trivial, h.leads_to (leads_integer i.toInt hrest) rfl⟩
  | .float x =>
    intro h
    rw [Value.text, Binary64.text, String.toList_ofList] at h
    exact h.float hrest
  | .boolean b =>
    intro h
    cases b with
    | false =>
      exact ⟨trivial, h.leads_to (leads_reserved (s := .false) (by decide) hrest.endsName) rfl⟩
    | true =>
      exact ⟨trivial, h.leads_to (leads_reserved (s := .true) (by decide) hrest.endsName) rfl⟩
  | .list items =>
    intro h
    have hopen : Accepts .tail
        ('[' :: ((", ".intercalate (Value.texts items)).toList ++ ']' :: rest)) := by
      simpa [Value.text] using h
    have hitems := hopen.mark (m := .leftBracket) rfl (by decide) rfl
    obtain ⟨hfinite, hclose⟩ := Accepts.values items hitems (endsLiteral_cons (by decide) rest)
    exact ⟨hfinite, hclose.mark (m := .rightBracket) rfl (by decide) rfl⟩

theorem Accepts.values (vs : List Value) {rest : List Char}
    (h : Accepts .tail ((", ".intercalate (Value.texts vs)).toList ++ rest))
    (hrest : EndsLiteral rest) : Value.AllFloatsFinite vs ∧ Accepts .tail rest := by
  revert h
  match vs with
  | [] =>
    intro h
    exact ⟨trivial, h⟩
  | [v] =>
    intro h
    obtain ⟨hv, hafter⟩ := Accepts.value v h hrest
    exact ⟨⟨hv, trivial⟩, hafter⟩
  | v :: w :: vs =>
    intro h
    rw [Value.toList_intercalate_texts, List.append_assoc] at h
    obtain ⟨hv, hcomma⟩ := Accepts.value v h (endsLiteral_cons (by decide) _)
    have hmore := (hcomma.mark (m := .comma) rfl (by decide) rfl).blank (by decide)
    obtain ⟨hvs, hafter⟩ := Accepts.values (w :: vs) hmore hrest
    exact ⟨⟨hv, hvs⟩, hafter⟩

end

/-! ## Comparisons -/

section

variable {path name : String} {v : Value}

theorem Accepts.presence (h : Accepts .operand ("has".toList ++ '(' :: (path.toList ++ ')' :: rest)))
    (hword : IsUnbroken path) (hplain : IsPlainPath path) :
    IsAttributePath path ∧ Accepts .tail rest := by
  have hparen := h.leads_to (leads_name isName_has (stops_cons (by decide) _)) rfl
  have hargument := hparen.mark (m := .leftParen) rfl (by decide) rfl
  have hclose : ¬Accepts .member (')' :: rest) :=
    not_accepts (leads_mark (s := .rightParen) (by decide) rest) rfl
  obtain ⟨hpath, test, hname⟩ := hargument.path hword hplain ⟨_, _, rfl, .inr (.inr rfl)⟩ hclose
  exact ⟨hpath, hname.mark (m := .rightParen) rfl (by decide) rfl⟩

theorem Accepts.relation {r : Symbol} (hr : r ∈ relations)
    (h : Accepts .operand (path.toList ++ ' ' :: (r.spelling ++ ' ' :: (v.text.toList ++ rest))))
    (hrest : EndsLiteral rest) (hword : IsUnbroken path) (hplain : IsPlainPath path) :
    IsAttributePath path ∧ v.FloatsFinite ∧ Accepts .tail rest := by
  have hleads := leads_relation hr (v.text.toList ++ rest)
  have hmember : ¬Accepts .member (' ' :: (r.spelling ++ ' ' :: (v.text.toList ++ rest))) :=
    fun hm => not_accepts hleads rfl (hm.blank (by decide))
  obtain ⟨hpath, test, hname⟩ := h.path hword hplain ⟨_, _, rfl, .inl rfl⟩ hmember
  have hends : (Place.name test).EndsPath := .inr ⟨test, rfl⟩
  have hnext := hends.next_end (List.mem_cons_of_mem _ (List.mem_cons_of_mem _ hr)) r.spelling
  have hafter := (hname.blank (by decide)).leads_to hleads hnext
  exact ⟨hpath, (hafter.blank (by decide)).value v hrest⟩

theorem Accepts.method (hname : IsName name.toList) (hhas : name ≠ "has")
    (h : Accepts .operand
      (path.toList ++ '.' :: (name.toList ++ '(' :: (v.text.toList ++ ')' :: rest))))
    (hword : IsUnbroken path) (hplain : IsPlainPath path) :
    IsAttributePath path ∧ v.FloatsFinite ∧ Accepts .tail rest := by
  have hdot := leads_dot (hname.stops_isDigit ('(' :: (v.text.toList ++ ')' :: rest)))
  obtain ⟨hpath, test, hpoint⟩ :=
    h.path hword hplain ⟨_, _, rfl, .inr (.inl rfl)⟩ (not_accepts hdot rfl)
  have hcall : Accepts .member (name.toList ++ '(' :: (v.text.toList ++ ')' :: rest)) :=
    hpoint.leads_to hdot rfl
  have hparen :=
    hcall.leads_to (leads_name hname (stops_cons (by decide) _)) (Place.next_word hhas)
  have hargument := hparen.mark (m := .leftParen) rfl (by decide) rfl
  obtain ⟨hfinite, hclose⟩ := hargument.value v (endsLiteral_cons (by decide) rest)
  exact ⟨hpath, hfinite, hclose.mark (m := .rightParen) rfl (by decide) rfl⟩

end

/-- A comparison of a plain path is cut into the tokens that it is written
with. -/
theorem Accepts.comparison {c : Comparison} (h : Accepts .operand (c.celText.toList ++ rest))
    (hrest : EndsLiteral rest) (hc : c.IsWellFormed) (hplain : IsPlainPath c.path) :
    c.IsExportable ∧ Accepts .tail rest := by
  have hfinite : ∀ {v : Value}, c.value = some v → v.FloatsFinite → ∀ w ∈ c.value,
      w.FloatsFinite := by
    intro v hv hv' w hw
    rw [hv] at hw
    exact Option.some.inj hw ▸ hv'
  unfold Comparison.celText at h
  cases celShape hc.value_iff with
  | presence hop hnone =>
    have htext : Accepts .operand ("has".toList ++ '(' :: (c.path.toList ++ ')' :: rest)) := by
      simpa [hop, CompareOperator.celForm] using h
    obtain ⟨hpath, htail⟩ := htext.presence hc.path hplain
    exact ⟨⟨hpath, hc.value_iff, by simp [hnone]⟩, htail⟩
  | relation v symbol s r hv hform hrelation hsymbol hs =>
    have htext : Accepts .operand
        (c.path.toList ++ ' ' :: (s.spelling ++ ' ' :: (v.text.toList ++ rest))) := by
      simpa [hform, hv, hsymbol] using h
    obtain ⟨hpath, hvalue, htail⟩ := Accepts.relation hs htext hrest hc.path hplain
    exact ⟨⟨hpath, hc.value_iff, hfinite hv hvalue⟩, htail⟩
  | method v name hv hform hop hname =>
    have htext : Accepts .operand
        (c.path.toList ++ '.' :: (name.toList ++ '(' :: (v.text.toList ++ ')' :: rest))) := by
      simpa [hform, hv] using h
    have hhas := (Tree.methodOperator?_eq_some hop).1
    obtain ⟨hpath, hvalue, htail⟩ := Accepts.method hname hhas htext hc.path hplain
    exact ⟨⟨hpath, hc.value_iff, hfinite hv hvalue⟩, htail⟩

end

end PolicyDialects.Cel
