import PolicyDialects.Condition
import PolicyDialects.Proofs.Cel.Fragment
import PolicyDialects.Proofs.Filter.Paths

/-!
# Integers in imported conditions

The integers of a CEL text are its decimal literals, negated for each minus sign
in front of them that only parentheses separate from them. Import keeps them in
64 bits, and negates them there.

* `writtenIntegers` — the integers that the pieces of a text spell.
* `Expression.integers` — the integers of a filter.
* `Represents` — which 64-bit integer import makes of one that is written.

Results:

* `conditionRules_writes`: every rule for conditions keeps the integers.
* `toFilterAt_ne_literalWithoutValue`: conversion never fails for want of a value.
* `integers_of_filterOfCel`: the integers of an imported filter are those of the
  text, but for 2⁶³, which wraps.
* `integers_wrapped`: 2⁶³ wraps as a negation, and is no value as a literal.
-/

namespace PolicyDialects.Filter

/-! ## The integers of a filter -/

mutual

/-- The integers in a value, from left to right. -/
def Value.integers : Value → List Int64
  | .integer i => [i]
  | .list items => listIntegers items
  | _ => []

/-- The integers in the values of a list. -/
def Value.listIntegers : List Value → List Int64
  | [] => []
  | v :: vs => v.integers ++ listIntegers vs

end

theorem Value.listIntegers_eq_flatMap (vs : List Value) :
    Value.listIntegers vs = vs.flatMap Value.integers := by
  induction vs with
  | nil => rfl
  | cons v vs ih => rw [listIntegers, ih, List.flatMap_cons]

/-- The integers in the value of a comparison. -/
def Comparison.integers (c : Comparison) : List Int64 := c.value.elim [] Value.integers

/-- The integers in the comparisons of a filter. -/
def Expression.integers (e : Expression) : List Int64 := e.comparisons.flatMap Comparison.integers

theorem Expression.integers_mapPaths (f : String → String) (e : Expression) :
    (e.mapPaths f).integers = e.integers := by
  unfold integers
  rw [comparisons_mapPaths, List.flatMap_map]
  rfl

end PolicyDialects.Filter

namespace PolicyDialects.Cel

open Text
open PolicyDialects.Filter (Comparison Expression Value)

/-! ## The integers of a text -/

/-- The integer or its negation. -/
def signed (negative : Bool) (i : Int) : Int := if negative then -i else i

/-- The integer that a decimal literal spells. -/
def Piece.integer? : Piece → Option Int
  | (.literal .int, text) => some (signed (takeMinus text).1 (numeralValue (takeMinus text).2))
  | _ => none

/-- Whether a literal behind the piece is negated, if one in its place would be. -/
def Piece.negates (negative : Bool) : Piece → Bool
  | (.symbol .minus, _) => !negative
  | (.symbol .minusMinus, _) => negative
  | (.symbol .leftParen, _) => negative
  | _ => false

/-- The integers that pieces spell, the first of them negated on demand. -/
def writtenIntegers (negative : Bool) : List Piece → List Int
  | [] => []
  | x :: xs =>
    match x.integer? with
    | some i => signed negative i :: writtenIntegers false xs
    | none => writtenIntegers (x.negates negative) xs

/-- The 64-bit integer that import makes of an integer. -/
def Represents (i : Int) (n : Int64) : Prop := n.toInt = i ∨ i = -Int64.minValue.toInt ∧ n = .minValue

/-- The pieces spell integers of which import makes `ns`, and negate nothing behind
them. -/
def Writes (negative : Bool) (ps : List Piece) (ns : List Int64) : Prop :=
  ∃ is : List Int, List.Forall₂ Represents is ns ∧
    ∀ qs, writtenIntegers negative (ps ++ qs) = is ++ writtenIntegers false qs

section

variable {negative : Bool} {ps qs : List Piece} {ns ms : List Int64}

theorem writes_nil : Writes false [] [] := ⟨[], .nil, fun _ => rfl⟩

theorem Writes.append (h : Writes negative ps ns) (h' : Writes false qs ms) :
    Writes negative (ps ++ qs) (ns ++ ms) := by
  obtain ⟨is, his, hps⟩ := h
  obtain ⟨js, hjs, hqs⟩ := h'
  refine ⟨is ++ js, List.rel_append his hjs, fun rs => ?_⟩
  rw [List.append_assoc, hps, hqs, List.append_assoc]

/-- A piece that carries a sign on. -/
theorem Writes.behind {x : Piece} (hx : x.integer? = none) (h : Writes (x.negates negative) ps ns) :
    Writes negative ([x] ++ ps) ns := by
  obtain ⟨is, his, hps⟩ := h
  refine ⟨is, his, fun rs => ?_⟩
  rw [List.append_assoc, List.singleton_append, writtenIntegers, hx]
  exact hps rs

/-- A piece without an integer, in front of which no sign counts. -/
theorem writes_other {x : Piece} (hx : x.integer? = none) (hstops : x.negates negative = false) :
    Writes negative [x] [] := by
  have h : Writes (x.negates negative) [] [] := by
    rw [hstops]
    exact writes_nil
  exact h.behind hx

theorem Writes.paren (h : Writes negative ps ns) (start finish : List Char) :
    Writes negative ([(.symbol .leftParen, start)] ++ ps ++ [(.symbol .rightParen, finish)]) ns := by
  have hclose : Writes false [(.symbol .rightParen, finish)] [] := writes_other rfl rfl
  have hopen : Writes negative ([(.symbol .leftParen, start)] ++ ps) ns := h.behind rfl
  simpa using hopen.append hclose

theorem writes_symbol {s : Symbol} (hs : s ≠ .minus) (text : List Char) :
    Writes false [(.symbol s, text)] [] := by
  refine writes_other rfl ?_
  cases s <;> first | rfl | exact absurd rfl hs

theorem writes_word (name : String) : Writes false [word name] [] := writes_other rfl rfl

/-- A symbol between pieces. -/
theorem Writes.join (h : Writes negative ps ns) (h' : Writes false qs ms) {s : Symbol}
    (hs : s ≠ .minus) (text : List Char) :
    Writes negative (ps ++ [(.symbol s, text)] ++ qs) (ns ++ ms) := by
  simpa using (h.append (writes_symbol hs text)).append h'

theorem IsHead.writes {name : String} (h : IsHead name ps) : Writes false ps [] := by
  cases h with
  | plain => exact writes_word name
  | dotted text => exact (writes_symbol (by decide) text).append (writes_word name)

/-- A method has the integers of its arguments. -/
theorem writes_method (hpath : Writes false ps []) (name : String) (hqs : Writes false qs ms)
    (dot paren : List Char) :
    Writes false
      (ps ++ [(.symbol .dot, dot)] ++ [word name] ++ [(.symbol .leftParen, paren)] ++ qs) ms :=
  (hpath.join (writes_word name) (by decide) dot).join hqs (by decide) paren

/-- Items write their integers one after the other. -/
theorem ItemPieces.writes {α : Type} {integers : α → List Int64} {close : Symbol} {xs : List α}
    (h : ItemPieces (fun x ps => Writes false ps (integers x)) close xs qs)
    (hclose : close ≠ .minus) : Writes false qs (xs.flatMap integers) := by
  induction h with
  | nil text => exact writes_symbol hclose text
  | last hx text => simpa using hx.append (writes_symbol hclose text)
  | cons hx text _ ih => simpa using hx.join ih (by decide) text

/-! ## Literals -/

/-- A literal that fits into 64 bits has the value that it spells. -/
theorem toInt_of_int64? {text : List Char} {i : Int64} (h : int64? text = some i) :
    i.toInt = signed (takeMinus text).1 (numeralValue (takeMinus text).2) := by
  unfold int64? at h
  change (if isNumeral (takeMinus text).2 ∧
      Int64.minValue.toInt ≤ signed (takeMinus text).1 (numeralValue (takeMinus text).2) ∧
      signed (takeMinus text).1 (numeralValue (takeMinus text).2) ≤ Int64.maxValue.toInt then
    some (Int64.ofInt (signed (takeMinus text).1 (numeralValue (takeMinus text).2)))
    else none) = some i at h
  split_ifs at h with hrange
  obtain rfl := Option.some.inj h
  obtain ⟨-, hmin, hmax⟩ := hrange
  have hminValue : Int64.minValue.toInt = -2 ^ 63 := by decide
  have hmaxValue : Int64.maxValue.toInt = 2 ^ 63 - 1 := by decide
  exact Int64.toInt_ofInt_of_le (by omega) (by omega)

/-- Negating in 64 bits negates the integer, but for the least one. -/
theorem represents_neg (i : Int64) : Represents (-i.toInt) (-i) := by
  by_cases hmin : i = .minValue
  · subst hmin
    exact .inr (by decide)
  · have hlow := i.le_toInt
    have hhigh := i.toInt_lt
    have hne : i.toInt ≠ -2 ^ 63 := fun h => hmin (Int64.toInt_inj.mp (h.trans (by decide)))
    refine .inl ?_
    rw [Int64.toInt_neg]
    exact Int.bmod_eq_of_le (by omega) (by omega)

/-- A constant that is no integer has none in its value. -/
theorem integers_of_value {c : Constant} {v : Value} (hc : ∀ i, c ≠ .int i)
    (hv : c.value negative = .ok v) : v.integers = [] := by
  cases c with
  | int i => exact absurd rfl (hc i)
  | _ => cases negative <;> cases hv <;> rfl

/-- What a literal writes is its value, negated or not. -/
theorem writes_literal {kind : LiteralKind} {text : List Char} {c : Constant} {v : Value}
    (h : literalValue? kind text = some c) (hv : c.value negative = .ok v) :
    Writes negative [(.literal kind, text)] v.integers := by
  by_cases hkind : kind = .int
  · subst hkind
    obtain ⟨i, hi, rfl⟩ := Option.map_eq_some_iff.mp h
    obtain rfl := Except.ok.inj hv
    refine ⟨[signed negative i.toInt], .cons ?_ .nil, fun rs => ?_⟩
    · cases negative with
      | false => exact .inl rfl
      | true => exact represents_neg i
    · rw [toInt_of_int64? hi]
      rfl
  · have hother : ∀ i, c ≠ .int i := by
      rintro i rfl
      cases kind <;> simp [literalValue?] at h hkind
    have hpiece : Piece.integer? (.literal kind, text) = none := by
      cases kind <;> first | rfl | exact absurd rfl hkind
    rw [integers_of_value hother hv]
    exact writes_other hpiece rfl

/-! ## Conditions -/

/-- Every rule for conditions keeps the integers: paths have none, a constant and a
condition have those that they write. -/
theorem conditionRules_writes :
    ConditionRules (fun ps => Writes false ps [])
      (fun c ps => ∀ negative v, c.value negative = .ok v → Writes negative ps v.integers)
      (fun v ps => Writes false ps v.integers)
      fun cs ps => Writes false ps (cs.flatMap Comparison.integers) where
  pathHead h := h.writes
  pathSelect h name text := h.join (writes_word name) (by decide) text
  pathNot h text := (writes_symbol (by decide) text).append h
  pathParen h start finish := h.paren start finish
  literalToken h negative v hv := writes_literal h hv
  literalReserved h text negative v hv := by
    simp only [reservedConstants, List.mem_cons, Prod.mk.injEq, List.not_mem_nil, or_false] at h
    rcases h with ⟨rfl, rfl⟩ | ⟨rfl, rfl⟩ | ⟨rfl, rfl⟩ <;>
      (rw [integers_of_value (by simp) hv]; exact writes_other rfl rfl)
  literalParen h start finish negative v hv := (h negative v hv).paren start finish
  constantPositive h hv := h false _ hv
  constantNegative h hv text := (h true _ hv).behind rfl
  constantList h text := by
    rw [Value.integers, Value.listIntegers_eq_flatMap]
    exact (writes_symbol (by decide) text).append (h.writes (by decide))
  constantParen h start finish := h.paren start finish
  conditionPresent hps harg p text := hps.writes.join (harg.writes (by decide)) (by decide) text
  conditionMethod hpath hname hv hc dot paren := by
    refine writes_method hpath _ ?_ dot paren
    simpa [Comparison.integers, hc] using hv.writes (by decide)
  conditionRelation hs hpath hv hc text := by
    have hminus : ∀ s ∈ relations, s ≠ .minus := by decide
    simpa [Comparison.integers, hc] using Writes.join hpath hv (hminus _ hs) text
  conditionJoin hs hps hqs text := by
    have hminus : ∀ s ∈ [Symbol.andAnd, .orOr], s ≠ .minus := by decide
    rw [List.flatMap_append]
    exact Writes.join hps hqs (hminus _ hs) text
  conditionNot hs h text := by
    have hminus : ∀ s ∈ [Symbol.bang, .bangBang], s ≠ .minus := by decide
    exact (writes_symbol (hminus _ hs) text).append h
  conditionParen h start finish := h.paren start finish

end

/-! ## Failures of conversion -/

namespace Tree

theorem value_ne_literalWithoutValue (c : Constant) (negative : Bool) :
    c.value negative ≠ .error .literalWithoutValue := by
  cases c <;> cases negative <;> simp [Constant.value]

mutual

theorem constantValue_ne_literalWithoutValue (e : Tree) :
    e.constantValue ≠ .error .literalWithoutValue := by
  unfold constantValue
  split
  · exact value_ne_literalWithoutValue _ _
  · exact value_ne_literalWithoutValue _ _
  · simp [malformedConstant]
  · rename_i items
    exact bind_ne_error (constantValues_ne_literalWithoutValue items) fun _ => ok_ne_error
  · simp [malformedConstant]

theorem constantValues_ne_literalWithoutValue (es : List Tree) :
    constantValues es ≠ .error .literalWithoutValue := by
  match es with
  | [] => exact ok_ne_error
  | e :: es =>
    refine bind_ne_error (constantValue_ne_literalWithoutValue e) fun _ => ?_
    exact bind_ne_error (constantValues_ne_literalWithoutValue es) fun _ => ok_ne_error

end

theorem selectPath_ne_literalWithoutValue (e : Tree) :
    e.selectPath ≠ .error .literalWithoutValue := by
  fun_induction selectPath e with
  | case1 => exact ok_ne_error
  | case2 e name ih => exact bind_ne_error ih fun _ => ok_ne_error
  | _ => simp [selectPath.notPath]

theorem path_ne_literalWithoutValue (names : NameMap) (e : Tree) :
    e.path names ≠ .error .literalWithoutValue := by
  refine bind_ne_error (selectPath_ne_literalWithoutValue e) fun path => ?_
  unfold NameMap.resolveIdql NameMap.resolve
  split
  · exact ok_ne_error
  · split_ifs <;> simp

theorem callFilter_ne_literalWithoutValue (names : NameMap) (receiver : Option Tree)
    (name : String) (args : List Tree) :
    callFilter names receiver name args ≠ .error .literalWithoutValue := by
  unfold callFilter
  split_ifs
  · split
    · exact bind_ne_error (path_ne_literalWithoutValue names _) fun _ => ok_ne_error
    · exact error_ne_error (by simp)
  · split
    · exact error_ne_error (by simp)
    · split
      · refine bind_ne_error (path_ne_literalWithoutValue names _) fun _ => ?_
        exact bind_ne_error (constantValue_ne_literalWithoutValue _) fun _ => ok_ne_error
      · exact error_ne_error (by simp)

theorem toFilterAt_ne_literalWithoutValue (names : NameMap) (u : Bool) (d : Nat) (t : Tree) :
    toFilterAt names u d t ≠ .error .literalWithoutValue := by
  fun_induction toFilterAt names u d t with
  | case1 => simp
  | case2 u d hd l r ihl ihr =>
    exact bind_ne_error ihl fun _ => bind_ne_error ihr fun _ => ok_ne_error
  | case3 u d hd l r ihl ihr =>
    exact bind_ne_error ihl fun _ => bind_ne_error ihr fun _ => ok_ne_error
  | case4 u d hd inner ih => exact bind_ne_error ih fun _ => ok_ne_error
  | case5 u d hd inner ih => exact bind_ne_error ih fun _ => ok_ne_error
  | case6 u d hd op left right =>
    refine bind_ne_error (constantValue_ne_literalWithoutValue right) fun value => ?_
    split
    · exact bind_ne_error (path_ne_literalWithoutValue names _) fun _ => ok_ne_error
    · exact bind_ne_error (path_ne_literalWithoutValue names _) fun _ => ok_ne_error
  | case7 => exact callFilter_ne_literalWithoutValue names _ _ _
  | case8 => exact callFilter_ne_literalWithoutValue names _ _ _
  | case9 => simp

end Tree

end PolicyDialects.Cel

namespace PolicyDialects.Condition

open Cel (Lexeme Represents Tree Valued lexemes writtenIntegers)
open PolicyDialects.Filter (Comparison Expression)

/-- Every literal of an imported text has a value, and the integers of the filter
are those of the text in their order, as they are or wrapped if they are 2⁶³. A
text is refused for want of a value only if some literal of it has none. -/
theorem integers_of_filterOfCel (names : NameMap) (cel : String) :
    (∀ e, filterOfCel names cel = .ok e →
        ∃ ts finish, lexemes cel.toList = (ts, .complete finish) ∧
          Valued (ts.map Lexeme.piece) ∧
          List.Forall₂ Represents (writtenIntegers false (ts.map Lexeme.piece)) e.integers) ∧
      (filterOfCel names cel = .error .literalWithoutValue →
        ∃ t ∈ (lexemes cel.toList).1, t.piece.HasNoValue) := by
  constructor
  · intro e he
    obtain ⟨t, hparse, hfilter⟩ := bind_eq_ok.mp he
    obtain ⟨⟨e₀, himports, rfl⟩, -⟩ := Tree.exists_imports_of_toFilterAt hfilter
    obtain ⟨ts, finish, hts, is, his, hwritten⟩ :=
      Cel.conditionRules_writes.of_imports hparse himports
    have hvalued := Cel.valued_of_parse hparse
    rw [hts] at hvalued
    have hall : writtenIntegers false (ts.map Lexeme.piece) = is := by
      simpa [writtenIntegers] using hwritten []
    refine ⟨ts, finish, hts, hvalued, ?_⟩
    rw [hall, Expression.integers_mapPaths]
    exact his
  · intro h
    unfold filterOfCel at h
    cases hparse : Tree.parse cel with
    | ok t =>
      rw [hparse] at h
      exact absurd h (Tree.toFilterAt_ne_literalWithoutValue names false 1 t)
    | error err =>
      rw [hparse] at h
      obtain rfl := Except.error.inj h
      exact Cel.exists_hasNoValue_of_parse hparse

/-- `a eq -5 and b in [3, -9223372036854775808] or not(c ge 9223372036854775807)`. -/
def signedFilter : Expression :=
  .or (.and (.compare (.with "a" .eq (.integer (-5))))
      (.compare (.with "b" .in (.list [.integer 3, .integer .minValue]))))
    (.not (.compare (.with "c" .ge (.integer .maxValue))))

/-- Signs, parentheses, lists and both ends of the range, and a number that import
cannot read. -/
theorem integers_signedFilter :
    let cel := "a == -(5) && b in [- -3, -9223372036854775808] || !c >= 9223372036854775807"
    filterOfCel .identity cel = .ok signedFilter ∧
      List.Forall₂ Represents [-5, 3, -9223372036854775808, 9223372036854775807]
        signedFilter.integers ∧
      filterOfCel .identity "a == 0x10" = .error .literalWithoutValue ∧
      ∃ t ∈ (lexemes "a == 0x10".toList).1, t.piece.HasNoValue := by
  intro cel
  have hfilter : filterOfCel .identity cel = .ok signedFilter := by decide +kernel
  have hwritten : writtenIntegers false ((lexemes cel.toList).1.map Lexeme.piece) =
      [-5, 3, -9223372036854775808, 9223372036854775807] := by decide +kernel
  obtain ⟨ts, finish, hts, -, hintegers⟩ := (integers_of_filterOfCel _ _).1 _ hfilter
  rw [hts] at hwritten
  rw [hwritten] at hintegers
  have hrefused : filterOfCel .identity "a == 0x10" = .error .literalWithoutValue := by
    decide +kernel
  exact ⟨hfilter, hintegers, hrefused, (integers_of_filterOfCel _ _).2 hrefused⟩

/-- The negation of the least integer comes back as it was, and a number beyond the
range is refused as a literal without a value. -/
theorem integers_wrapped :
    filterOfCel .identity "a == - -9223372036854775808" =
        .ok (.compare (.with "a" .eq (.integer .minValue))) ∧
      writtenIntegers false ((lexemes "a == - -9223372036854775808".toList).1.map Lexeme.piece) =
        [9223372036854775808] ∧
      filterOfCel .identity "a == 9223372036854775808" = .error .literalWithoutValue := by
  exact ⟨by decide +kernel, by decide +kernel, by decide +kernel⟩

end PolicyDialects.Condition
