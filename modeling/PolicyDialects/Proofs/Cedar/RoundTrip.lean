import PolicyDialects.Proofs.Cedar.Reading

/-!
# Printed Cedar documents are read back

Results:

* `Document.parse_text_of_isSpelled`: reading undoes printing, for documents
  whose keys, entities and bodies keep together and whose annotations hold no
  control characters.
-/

namespace PolicyDialects.Cedar

open Text

/-- Reading undoes printing: the policies come back in their order, with their
effects, slots, operators, actions, clauses and annotations. -/
theorem Document.parse_text_of_isSpelled {d : Document} (h : ∀ p ∈ d.policies, p.IsSpelled)
    (hplain : d.NotesPlain) : Document.parse d.text = .ok d := by
  rw [Document.parse_text h, Document.reread_eq_self hplain]

/-- Annotations with and without a value, entities and a body whose strings hold
separators and braces, and a policy without any constraint. -/
def separatedDocument : Document where
  policies :=
    [{ notes := [⟨"id", some "\"a\", b)"⟩, ⟨"_draft", none⟩],
       effect := .forbid,
       head := { principal := some ⟨.in, "Group::\"x, y)\""⟩,
                 action := some (.in ["Action::\"a]\"", "b//c"]),
                 resource := some ⟨.eq, "Doc::\"\x7b;\""⟩ },
       clauses := [⟨.when, "\x7b a == \"\x7d\" \x7d"⟩, ⟨.unless, ""⟩] },
     { effect := .permit, head := {} }]

theorem parse_text_separatedDocument :
    (∀ p ∈ separatedDocument.policies, p.IsSpelled) ∧ separatedDocument.NotesPlain ∧
      Document.parse separatedDocument.text = .ok separatedDocument := by
  have hreference : ∀ type ∈ ["Group", "Action", "Doc"], ∀ id,
      IsEntityText (type ++ "::" ++ quote id) := by
    intro type htype id
    refine isEntityText_reference ?_ id
    revert type
    decide
  have hslashes : IsEntityText "b//c" :=
    ⟨by decide, isEntityChars_plain (by decide), fun rest h => by cases h⟩
  have hkeys : IsIdent "id" ∧ IsIdent "_draft" :=
    ⟨⟨'i', ['d'], rfl, by decide, by decide⟩, ⟨'_', "draft".toList, rfl, by decide, by decide⟩⟩
  have hbody : IsBodyText "\x7b a == \"\x7d\" \x7d" := by
    have hliteral : IsBodyChars "\"\x7d\" ".toList :=
      .literal (s := (quote "\x7d").toList) (isLiteral_quote _) (isBodyChars_plain (by decide))
    have hinner : IsBodyChars (" a == ".toList ++ "\"\x7d\" ".toList) :=
      (isBodyChars_plain (by decide)).append hliteral
    exact ⟨.group hinner .nil, by decide⟩
  have hspelled : ∀ p ∈ separatedDocument.policies, p.IsSpelled := by
    refine List.forall_mem_cons.mpr ⟨?_, List.forall_mem_singleton.mpr ?_⟩
    · refine ⟨?_, ?_, by decide, ?_⟩
      · exact List.forall_mem_cons.mpr ⟨hkeys.1, List.forall_mem_singleton.mpr hkeys.2⟩
      · refine List.forall_mem_cons.mpr ⟨hreference "Group" (by decide) "x, y)", ?_⟩
        refine List.forall_mem_cons.mpr ⟨hreference "Action" (by decide) "a]", ?_⟩
        refine List.forall_mem_cons.mpr ⟨hslashes, ?_⟩
        exact List.forall_mem_singleton.mpr (hreference "Doc" (by decide) "\x7b;")
      · exact List.forall_mem_cons.mpr ⟨hbody,
          List.forall_mem_singleton.mpr ⟨.nil, by decide⟩⟩
    · exact ⟨List.forall_mem_nil _, List.forall_mem_nil _, by decide, List.forall_mem_nil _⟩
  have hplain : separatedDocument.NotesPlain := by
    unfold Document.NotesPlain
    decide
  exact ⟨hspelled, hplain, Document.parse_text_of_isSpelled hspelled hplain⟩

end PolicyDialects.Cedar
