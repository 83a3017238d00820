import Mathlib.Tactic.Common
import PolicyDialects.Cel.Parser
import PolicyDialects.Proofs.Text.Literals

/-!
# Names in CEL expressions

* `IsName` — identifiers that are no reserved words.
* `Tree.Named` — expressions whose names are such identifiers.

Results:

* `allNames_lexemesFrom`: the text of a name token is an identifier and no
  reserved word.
-/

namespace PolicyDialects.Cel

open Text

/-- An identifier that is no reserved word. -/
structure IsName (cs : List Char) : Prop where
  start : ∃ c rest, cs = c :: rest ∧ isIdentStart c = true
  part : ∀ c ∈ cs, isIdentPart c = true
  free : ∀ s ∈ Symbol.words, s.spelling ≠ cs

/-! ## Name tokens -/

/-- One shape against the best so far. -/
def longer (best s : Token × Nat) : Token × Nat := if best.2 ≤ s.2 then s else best

theorem mem_foldl_longer (shapes : List (Token × Nat)) (best : Token × Nat) :
    shapes.foldl longer best ∈ best :: shapes := by
  induction shapes generalizing best with
  | nil => exact List.mem_singleton.mpr rfl
  | cons s shapes ih =>
    rw [List.foldl_cons]
    unfold longer
    by_cases hle : best.2 ≤ s.2
    · rw [if_pos hle]
      exact List.mem_cons_of_mem _ (ih s)
    · rw [if_neg hle]
      have hmem := ih best
      rw [List.mem_cons] at hmem ⊢
      exact hmem.imp id fun h => List.mem_cons_of_mem _ h

theorem mem_of_longest {shapes : List (Token × Nat)} (h : (longest shapes).2 ≠ 0) :
    longest shapes ∈ shapes := by
  rcases List.mem_cons.mp (mem_foldl_longer shapes (.ident, 0)) with h' | h'
  · exact absurd (congrArg Prod.snd h') h
  · exact h'

/-- The longest shape is one that no later one reaches. -/
theorem longest_append_cons (front : List (Token × Nat)) {back : List (Token × Nat)}
    {token : Token} {n : Nat} (hfront : ∀ s ∈ front, s.2 ≤ n)
    (hback : ∀ s ∈ back, s.2 < n) :
    longest (front ++ (token, n) :: back) = (token, n) := by
  have hstay : ∀ back : List (Token × Nat), (∀ s ∈ back, s.2 < n) →
      back.foldl longer (token, n) = (token, n) := by
    intro back hback
    induction back with
    | nil => rfl
    | cons s back ih =>
      have hlt := hback s List.mem_cons_self
      rw [List.foldl_cons, longer, if_neg (by simpa using hlt)]
      exact ih fun x hx => hback x (List.mem_cons_of_mem _ hx)
  have hbest : (front.foldl longer (.ident, 0)).2 ≤ n := by
    rcases List.mem_cons.mp (mem_foldl_longer front (.ident, 0)) with h | h
    · rw [h]; exact Nat.zero_le n
    · exact hfront _ h
  show (front ++ (token, n) :: back).foldl longer (.ident, 0) = (token, n)
  rw [List.foldl_append, List.foldl_cons]
  unfold longer at hbest ⊢
  rw [if_pos hbest]
  exact hstay back hback

/-- The piece that an identifier takes of a text. -/
theorem take_identLength {cs : List Char} (h : identLength cs ≠ 0) :
    (∃ c rest, cs.take (identLength cs) = c :: rest ∧ isIdentStart c = true) ∧
      ∀ c ∈ cs.take (identLength cs), isIdentPart c = true := by
  cases cs with
  | nil => exact absurd rfl h
  | cons c cs =>
    unfold identLength at h ⊢
    dsimp only at h ⊢
    split_ifs at h ⊢ with hc
    · have htake : (c :: cs).take (1 + run isIdentPart cs) = c :: cs.takeWhile isIdentPart := by
        rw [Nat.add_comm, List.take_succ_cons, run,
          ← List.prefix_iff_eq_take.mp (List.takeWhile_prefix isIdentPart)]
      rw [htake]
      refine ⟨⟨c, _, rfl, hc⟩, fun x hx => ?_⟩
      rcases List.mem_cons.mp hx with rfl | hx
      · simp [isIdentPart, hc]
      · exact List.all_eq_true.mp List.all_takeWhile x hx
    · exact absurd rfl h

/-- A name token is the longest name there, and no reserved word. -/
theorem eq_identLength_of_tokenAt {cs : List Char} {n : Nat} (h : tokenAt cs = (.ident, n))
    (hn : n ≠ 0) : n = identLength cs ∧ ∀ s ∈ Symbol.words, s.spelling ≠ cs.take n := by
  unfold tokenAt at h
  generalize hbest : longest (shapes cs) = best at h
  obtain ⟨token, length⟩ := best
  dsimp only at h
  split at h
  · cases h
  · rename_i hfree
    have heq : (token, length) = (Token.ident, n) := by
      split at h
      · split_ifs at h
        · cases h
        · exact h
      · exact h
    obtain ⟨rfl, rfl⟩ := Prod.mk.inj heq
    have hmem : (Token.ident, length) ∈ shapes cs := by
      rw [← hbest]
      exact mem_of_longest (by rw [hbest]; exact hn)
    refine ⟨by simpa [shapes] using hmem, fun s hs heq => ?_⟩
    have := List.find?_eq_none.mp hfree s hs
    simp [heq] at this

/-- A name token is an identifier that is no reserved word. -/
theorem isName_of_tokenAt {cs : List Char} {n : Nat} (h : tokenAt cs = (.ident, n)) (hn : n ≠ 0) :
    IsName (cs.take n) := by
  obtain ⟨rfl, hfree⟩ := eq_identLength_of_tokenAt h hn
  obtain ⟨hstart, hpart⟩ := take_identLength hn
  exact ⟨hstart, hpart, hfree⟩

/-- Every name token of a list is an identifier. -/
def AllNames (ts : List Lexeme) : Prop := ∀ t ∈ ts, t.token = .ident → IsName t.text

theorem allNames_lexemesFrom (offset last : Nat) (cs : List Char) :
    AllNames (lexemesFrom offset last cs).1 := by
  fun_induction lexemesFrom offset last cs with
  | case1 => rintro t ht; cases ht
  | case2 _ _ _ _ _ _ ih => exact ih
  | case3 _ _ _ _ _ _ _ _ ih => exact ih
  | case4 => rintro t ht; cases ht
  | case5 offset last c rest blanks comment hcomment hblanks token length htoken hlength text finish
      more ending hmore ih =>
    rw [hmore] at ih
    rintro t ht hident
    rcases List.mem_cons.mp ht with rfl | ht
    · dsimp only at hident
      subst hident
      exact isName_of_tokenAt htoken hlength
    · exact ih t ht hident

/-! ## Names of expressions -/

/-- Every name and every constant in the expression have a property. -/
inductive Tree.Each (p : String → Prop) (q : Constant → Prop) : Tree → Prop where
  | ident {name : String} (hname : p name) : Each p q (.ident name)
  | constant {c : Constant} (hc : q c) : Each p q (.constant c)
  | select {e : Tree} {name : String} (he : Each p q e) (hname : p name) :
      Each p q (.select e name)
  | index {e i : Tree} (he : Each p q e) (hi : Each p q i) : Each p q (.index e i)
  | fields {e : Tree} {values : List (String × Tree)} (he : Each p q e)
      (hnames : ∀ v ∈ values, p v.1) (hvalues : ∀ v ∈ values, Each p q v.2) :
      Each p q (.fields e values)
  | call {name : String} {args : List Tree} (hname : p name) (hargs : ∀ a ∈ args, Each p q a) :
      Each p q (.call name args)
  | methodCall {receiver : Tree} {name : String} {args : List Tree}
      (hreceiver : Each p q receiver) (hname : p name) (hargs : ∀ a ∈ args, Each p q a) :
      Each p q (.methodCall receiver name args)
  | unary {op : Negation} {e : Tree} (he : Each p q e) : Each p q (.unary op e)
  | arithmetic {op : Arithmetic} {left right : Tree} (hl : Each p q left) (hr : Each p q right) :
      Each p q (.arithmetic op left right)
  | relation {op : Relation} {left right : Tree} (hl : Each p q left) (hr : Each p q right) :
      Each p q (.relation op left right)
  | and {left right : Tree} (hl : Each p q left) (hr : Each p q right) :
      Each p q (.and left right)
  | or {left right : Tree} (hl : Each p q left) (hr : Each p q right) : Each p q (.or left right)
  | ternary {condition yes no : Tree} (hc : Each p q condition) (hy : Each p q yes)
      (hn : Each p q no) : Each p q (.ternary condition yes no)
  | list {items : List Tree} (hitems : ∀ e ∈ items, Each p q e) : Each p q (.list items)
  | map {entries : List (Tree × Tree)} (hkeys : ∀ e ∈ entries, Each p q e.1)
      (hvalues : ∀ e ∈ entries, Each p q e.2) : Each p q (.map entries)

/-- Every name in the expression is an identifier. -/
abbrev Tree.Named (e : Tree) : Prop := e.Each (fun name => IsName name.toList) fun _ => True

end PolicyDialects.Cel
