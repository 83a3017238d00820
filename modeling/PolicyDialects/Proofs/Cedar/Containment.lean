import PolicyDialects.Proofs.Cedar.Bodies
import PolicyDialects.Proofs.Cedar.Reading
import PolicyDialects.Proofs.Filter.Tokens

/-!
# Strings stay inside their quotes

Filters, conditions and documents quote a string in the same way and read it by
different rules: filters know every escape, and documents only that a backslash
hides the character after it. Both find the same closing quote. A condition,
whose strings are all quoted, therefore cannot end the clause that it is put in.

Results:

* `quote_contained`: a quoted string is one token of a filter and one literal of
  a document, and both go on right behind it.
* `finds_clause_of_toCel`: a clause around an exported condition is read as that
  clause, and reading stops right behind its closing brace.
-/

namespace PolicyDialects.Cedar

open Text
open Reader
open PolicyDialects.Filter (Expression tokenizeFrom)

/-! ## Literals -/

/-- The place behind a text. -/
theorem Place.at_append (offset : Nat) (front rest : List Char) :
    (⟨offset, front ++ rest⟩ : Place).at rest = ⟨offset + byteLength front, rest⟩ := by
  have hend : offset + byteLength (front ++ rest) - byteLength rest =
      offset + byteLength front := by
    rw [byteLength_append]
    omega
  rw [Place.at, hend]

/-- The rule for literals takes a quoted text and nothing behind it. -/
theorem rule_string_quote (s : String) (rest : List Char) (offset : Nat) :
    rule .string (shape takeString) ⟨offset, (quote s).toList ++ rest⟩ =
      (some (quote s, ⟨offset + byteLength (quote s).toList, rest⟩),
        [.mk .string offset false []]) := by
  have htake : takeString ((quote s).toList ++ rest) = some ((quote s).toList, rest) :=
    takeString_append (isLiteral_quote s) rest
  have hshape : shape takeString ⟨offset, (quote s).toList ++ rest⟩ =
      (some (quote s, ⟨offset + byteLength (quote s).toList, rest⟩), []) := by
    rw [shape, htake]
    dsimp only
    rw [String.ofList_toList, Place.at_append]
  rw [rule, hshape]
  rfl

/-- Whatever a string holds and whatever stands behind it, filters read it,
quoted, as one token and documents as one literal. Both go on right behind it,
and no control character is written. -/
theorem quote_contained (s : String) (rest : List Char) (offset : Nat) :
    tokenizeFrom offset ((quote s).toList ++ rest) =
        (tokenizeFrom (offset + byteLength (quote s).toList) rest).map
          (⟨.literal s, offset⟩ :: ·) ∧
      rule .string (shape takeString) ⟨offset, (quote s).toList ++ rest⟩ =
        (some (quote s, ⟨offset + byteLength (quote s).toList, rest⟩),
          [.mk .string offset false []]) ∧
      ∀ c ∈ (quote s).toList, isControl c = false :=
  ⟨Filter.tokenizeFrom_quote s rest offset, rule_string_quote s rest offset,
    fun _ hc => isControl_of_mem_quote hc⟩

/-! ## Clauses -/

/-- A name that is not empty and holds no blank, brace or quotation mark. -/
structure IsPlainName (name : String) : Prop where
  ne_empty : name ≠ ""
  plain : ∀ c ∈ name.toList, c ≠ '"' ∧ c ≠ '\x7b' ∧ c ≠ '\x7d' ∧ isBlank c = false

instance : DecidablePred IsPlainName := fun name =>
  decidable_of_iff (name ≠ "" ∧
      ∀ c ∈ name.toList, c ≠ '"' ∧ c ≠ '\x7b' ∧ c ≠ '\x7d' ∧ isBlank c = false)
    ⟨fun ⟨hne, hplain⟩ => ⟨hne, hplain⟩, fun ⟨hne, hplain⟩ => ⟨hne, hplain⟩⟩

theorem IsPlainName.isNameText {name : String} (h : IsPlainName name) : IsNameText name := by
  have hne : name.toList ≠ [] := fun hnil => h.ne_empty (String.toList_eq_nil_iff.mp hnil)
  refine (isSolid_plain hne fun c hc => ?_).toIsNameText
  obtain ⟨hquote, hopen, hclose, hblank⟩ := h.plain c hc
  exact ⟨⟨hquote, hopen, hclose⟩, hblank⟩

theorem namesFit_of_isPlainName {names : NameMap} {e : Expression}
    (h : ∀ c ∈ e.comparisons, Yields IsPlainName (names.resolveProvider c.path)) :
    NamesFit names e :=
  Expression.each_iff_forall_comparisons.mpr fun c hc => (h c hc).imp fun _ => (·.isNameText)

/-- A clause around an exported condition is read as that clause, whatever the
strings of the condition hold, and reading stops right behind its closing brace.
-/
theorem finds_clause_of_toCel {names : NameMap} {e : Expression} {cel : String}
    (hnames : ∀ c ∈ e.comparisons, Yields IsPlainName (names.resolveProvider c.path))
    (hcel : e.toCel names = .ok cel) (kind : ClauseKind) (rest : List Char) :
    Finds clause ((⟨kind, cel⟩ : Clause).text.toList ++ rest) ⟨kind, cel⟩ rest :=
  finds_clause (yields_toCel (namesFit_of_isPlainName hnames) cel hcel) rest

/-- A condition with marks of clauses, policies and comments in its strings. -/
def forged : Expression :=
  .logical .and
    (.not (.logical .or (.compare (.with "note" .eq (.string "\x7d unless \x7b \"")))
      (.compare (.with "note" .sw (.string "\\")))))
    (.compare (.with "tag" .ne (.string "\x7d; // \x7d")))

/-- The same condition as it is exported. -/
def forgedCel : String :=
  "!(note == \"\x7d unless \x7b \\\"\" || note.startsWith(\"\\\\\")) && tag != \"\x7d; // \x7d\""

theorem finds_clause_of_toCel_forged :
    (∀ c ∈ forged.comparisons, Yields IsPlainName (NameMap.identity.resolveProvider c.path)) ∧
      forged.toCel .identity = .ok forgedCel ∧
      Finds clause ((⟨.unless, forgedCel⟩ : Clause).text.toList ++ " \x7d;".toList)
        ⟨.unless, forgedCel⟩ " \x7d;".toList := by
  have hnames : ∀ c ∈ forged.comparisons,
      Yields IsPlainName (NameMap.identity.resolveProvider c.path) := by decide
  have hcel : forged.toCel .identity = .ok forgedCel := rfl
  exact ⟨hnames, hcel, finds_clause_of_toCel hnames hcel .unless _⟩

end PolicyDialects.Cedar
