import PolicyDialects.Proofs.Cel.Fragment

/-!
# A scan of CEL conditions

What can be imported has few shapes, and so have its tokens: names stand where
an operand starts or behind a point, a relation stands behind an attribute, and
a logical operator behind a whole condition. `Place.scan` walks over the pieces
of a text with no more memory than the place it is at. It does not match
brackets, and lets more through than can be imported.

Results:

* `scan_of_imports`: the pieces of a text pass the scan if the text can be
  imported.
-/

namespace PolicyDialects.Cel

open Text
open PolicyDialects.Filter (Comparison Expression Value)

/-! ## The scan -/

/-- Places between the tokens of a condition. -/
inductive Place where
  /-- An operand of a logical operator starts, or one in parentheses. -/
  | operand
  /-- Behind the point of a path. -/
  | member
  /-- Behind a name of a path; the flag says whether it is `has`. -/
  | name (test : Bool)
  /-- Behind an operator of a comparison, or in its constant, or behind it. -/
  | tail
  deriving DecidableEq

namespace Place

/-- Symbols that end a path. -/
def pathEnds : List Symbol := .rightParen :: .comma :: relations

/-- The place behind a piece, if the piece may stand there. -/
def next : Place → Piece → Option Place
  | .operand, (.ident, text) => some (.name (text == "has".toList))
  | .operand, (.symbol s, _) =>
    if s = .dot then some .member
    else if s = .leftParen ∨ s = .bang ∨ s = .bangBang then some .operand
    else none
  | .member, (.ident, text) => some (.name (text == "has".toList))
  | .name test, (.symbol s, _) =>
    if s = .dot then some .member
    else if s = .leftParen then some (if test then .operand else .tail)
    else if s ∈ pathEnds then some .tail
    else none
  | .tail, (.literal _, _) => some .tail
  | .tail, (.symbol s, _) =>
    if s = .dot then some .member
    else if s = .andAnd ∨ s = .orOr then some .operand
    else some .tail
  | _, _ => none

/-- The place behind pieces, if they may stand there. -/
def scan (s : Place) (ps : List Piece) : Option Place := ps.foldlM next s

theorem scan_nil (s : Place) : s.scan [] = some s := rfl

theorem scan_cons (s : Place) (p : Piece) (ps : List Piece) :
    s.scan (p :: ps) = s.next p >>= fun s' => s'.scan ps := List.foldlM_cons

theorem scan_append (s : Place) (ps qs : List Piece) :
    s.scan (ps ++ qs) = s.scan ps >>= fun s' => s'.scan qs := List.foldlM_append

/-- A path may end here. -/
def EndsPath (s : Place) : Prop := s = .tail ∨ ∃ test, s = .name test

theorem EndsPath.next_dot {s : Place} (h : s.EndsPath) (text : List Char) :
    s.next (.symbol .dot, text) = some .member := by
  rcases h with rfl | ⟨test, rfl⟩ <;> rfl

/-- Behind a path, what ends it leads to its tail. -/
theorem EndsPath.next_end {s : Place} (h : s.EndsPath) {e : Symbol} (he : e ∈ pathEnds)
    (text : List Char) : s.next (.symbol e, text) = some .tail := by
  have hends : ∀ e ∈ pathEnds, e ≠ .dot ∧ e ≠ .leftParen ∧ e ≠ .andAnd ∧ e ≠ .orOr := by
    decide
  obtain ⟨hdot, hparen, hand, hor⟩ := hends e he
  rcases h with rfl | ⟨test, rfl⟩
  · simp [next, hdot, hand, hor]
  · simp [next, hdot, hparen, he]

/-- Constants hold neither points nor logical operators. -/
theorem next_tail {s : Symbol} (h : s ≠ .dot ∧ s ≠ .andAnd ∧ s ≠ .orOr) (text : List Char) :
    next .tail (.symbol s, text) = some .tail := by
  simp [next, h]

/-- A name other than `has` behind a point. -/
theorem next_word {name : String} (h : name ≠ "has") :
    next .member (word name) = some (.name false) := by
  have hhas : (name.toList == "has".toList) = false := by
    rw [beq_eq_false_iff_ne, Ne, String.toList_inj]
    exact h
  rw [← hhas]
  rfl

end Place

open Place (scan scan_nil scan_cons scan_append)

/-! ## What can be imported -/

section

variable {ps qs : List Piece}

theorem IsHead.scan_eq {name : String} (h : IsHead name ps) :
    scan .operand ps = some (.name (name.toList == "has".toList)) := by
  cases h <;> rfl

/-- Parentheses are passed where an operand starts. -/
theorem scan_paren {s : Place} (h : scan .operand ps = some s) (hends : s.EndsPath)
    (start finish : List Char) :
    scan .operand ([(.symbol .leftParen, start)] ++ ps ++ [(.symbol .rightParen, finish)]) =
      some .tail := by
  have hopen : Place.next .operand (.symbol .leftParen, start) = some .operand := rfl
  rw [scan_append, scan_append]
  simp [scan_cons, scan_nil, hopen, h, hends.next_end (e := .rightParen) (by decide)]

/-- They are passed inside a constant as well. -/
theorem scan_tail_paren (h : scan .tail ps = some .tail) (start finish : List Char) :
    scan .tail ([(.symbol .leftParen, start)] ++ ps ++ [(.symbol .rightParen, finish)]) =
      some .tail := by
  rw [scan_append, scan_append]
  simp [scan_cons, scan_nil, h, Place.next_tail]

/-- One argument that is a path. -/
theorem ItemPieces.scan_path {arg : Tree}
    (h : ItemPieces (fun _ ps => ∃ s, scan .operand ps = some s ∧ s.EndsPath) .rightParen [arg] qs) :
    scan .operand qs = some .tail := by
  cases h with
  | last hx text =>
    obtain ⟨s, hs, hends⟩ := hx
    rw [scan_append, hs]
    simp [scan_cons, scan_nil, hends.next_end (e := .rightParen) (by decide)]
  | cons hx text hxs =>
    obtain ⟨s, hs, hends⟩ := hx
    cases hxs with
    | nil text' =>
      rw [scan_append, scan_append, hs]
      simp [scan_cons, scan_nil, hends.next_end (e := .comma) (by decide), Place.next_tail]

/-- Arguments or items that are constants. -/
theorem ItemPieces.scan_constants {close : Symbol} {vs : List Value}
    (h : ItemPieces (fun _ ps => scan .tail ps = some .tail) close vs qs)
    (hclose : close ≠ .dot ∧ close ≠ .andAnd ∧ close ≠ .orOr) : scan .tail qs = some .tail := by
  induction h with
  | nil text => simp [scan_cons, scan_nil, Place.next_tail hclose]
  | last hx text =>
    rw [scan_append, hx]
    simp [scan_cons, scan_nil, Place.next_tail hclose]
  | cons hx text _ ih =>
    rw [scan_append, scan_append, hx]
    simp [scan_cons, scan_nil, Place.next_tail, ih]

/-- A comparison is passed by the way of its path and its constant. -/
theorem scan_comparison {s : Place} {e : Symbol} (h : scan .operand ps = some s)
    (hends : s.EndsPath) (he : e ∈ Place.pathEnds) (hqs : scan .tail qs = some .tail)
    (text : List Char) : scan .operand (ps ++ [(.symbol e, text)] ++ qs) = some .tail := by
  rw [scan_append, scan_append, h]
  simp [scan_cons, scan_nil, hends.next_end he, hqs]

theorem scan_method {s : Place} {name : String} (h : scan .operand ps = some s)
    (hends : s.EndsPath) (hname : name ≠ "has") (hqs : scan .tail qs = some .tail)
    (dot paren : List Char) :
    scan .operand
      (ps ++ [(.symbol .dot, dot)] ++ [word name] ++ [(.symbol .leftParen, paren)] ++ qs) =
      some .tail := by
  have hparen : Place.next (.name false) (.symbol .leftParen, paren) = some .tail := rfl
  rw [scan_append, scan_append, scan_append, scan_append, h]
  simp only [Option.bind_eq_bind, Option.bind_some, scan_cons, scan_nil, hends.next_dot,
    Place.next_word hname, hparen]
  exact hqs

end

/-- The scan passes the pieces of every shape: paths from where an operand starts
to a place where a path may end, constants behind an operator, and conditions
from one end to the other. -/
theorem conditionRules_scan :
    ConditionRules (fun ps => ∃ s, scan .operand ps = some s ∧ s.EndsPath)
      (fun _ ps => scan .tail ps = some .tail) (fun _ ps => scan .tail ps = some .tail)
      fun _ ps => scan .operand ps = some .tail where
  pathHead h := ⟨_, h.scan_eq, .inr ⟨_, rfl⟩⟩
  pathSelect h name text := by
    obtain ⟨s, hs, hends⟩ := h
    refine ⟨.name (name.toList == "has".toList), ?_, .inr ⟨_, rfl⟩⟩
    rw [scan_append, scan_append, hs]
    simp only [Option.bind_eq_bind, Option.bind_some, scan_cons, scan_nil, hends.next_dot]
    rfl
  pathNot h text := h
  pathParen h start finish := by
    obtain ⟨s, hs, hends⟩ := h
    exact ⟨.tail, scan_paren hs hends start finish, .inl rfl⟩
  literalToken _ := rfl
  literalReserved h text := by
    have hconstants : ∀ x ∈ reservedConstants, x.1 ≠ .dot ∧ x.1 ≠ .andAnd ∧ x.1 ≠ .orOr := by
      decide
    simp [scan_cons, scan_nil, Place.next_tail (hconstants _ h)]
  literalParen h start finish := scan_tail_paren h start finish
  constantPositive h _ := h
  constantNegative h _ text := h
  constantList h text := h.scan_constants (by decide)
  constantParen h start finish := scan_tail_paren h start finish
  conditionPresent hps harg p text := by
    rw [scan_append, scan_append, hps.scan_eq]
    exact harg.scan_path
  conditionMethod hpath hname hv _ dot paren := by
    obtain ⟨s, hs, hends⟩ := hpath
    exact scan_method hs hends hname (hv.scan_constants (by decide)) dot paren
  conditionRelation hs hpath hv _ text := by
    obtain ⟨s', hs', hends⟩ := hpath
    exact scan_comparison hs' hends (List.mem_cons_of_mem _ (List.mem_cons_of_mem _ hs)) hv text
  conditionJoin hs hps hqs text := by
    have hnext : ∀ s ∈ [Symbol.andAnd, .orOr],
        Place.next .tail (.symbol s, text) = some .operand := by
      simp [Place.next]
    rw [scan_append, scan_append, hps]
    simp [scan_cons, scan_nil, hnext _ hs, hqs]
  conditionNot hs h text := by
    have hnext : ∀ s ∈ [Symbol.bang, .bangBang],
        Place.next .operand (.symbol s, text) = some .operand := by
      simp [Place.next]
    rw [scan_append]
    simp [scan_cons, scan_nil, hnext _ hs, h]
  conditionParen h start finish := scan_paren h (.inl rfl) start finish

/-- The pieces of a text that can be imported pass the scan. -/
theorem scan_of_imports {text : String} {t : Tree} {u : Bool} {e : Expression}
    (hparse : Tree.parse text = .ok t) (himports : Tree.Imports u t e) :
    ∃ ts finish, lexemes text.toList = (ts, .complete finish) ∧
      scan .operand (ts.map Lexeme.piece) = some .tail :=
  conditionRules_scan.of_imports hparse himports

end PolicyDialects.Cel
