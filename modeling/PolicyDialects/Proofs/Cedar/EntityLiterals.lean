import PolicyDialects.Idql.Subject
import PolicyDialects.Proofs.Cedar.Lexical
import PolicyDialects.Proofs.Text.Joined

/-!
# Entities with a quoted id

Whom a subject is about when it is written `Path::"id"`. The id may hold
anything, colons, quotes and blanks included.

* `EntityLiteral` — such an entity, with the names of its path.

Results:

* `EntityLiteral.entityType_text`: the type is the last name of the path.
* `EntityLiteral.isScheme_text`: the first name may be taken for an authentication
  scheme.
* `EntityLiteral.classify_text`: the subject is the entity, unless that happens.
* `classify_schemeNamespace`: it does happen.
-/

namespace PolicyDialects.Cedar

open Idql (EntityKind Subject entityType lastSegment typePath?)
open Text

theorem IsIdent.not_mem {name : String} (h : IsIdent name) {c : Char}
    (hc : isIdentPart c = false) : c ∉ name.toList := by
  obtain ⟨d, ds, hname, hstart, hparts⟩ := h
  rw [hname]
  intro hmem
  rcases List.mem_cons.mp hmem with rfl | hmem
  · simp [isIdentPart, hstart] at hc
  · rw [hparts c hmem] at hc
    cases hc

theorem isBlank_of_isIdentStart {c : Char} (h : isIdentStart c = true) : isBlank c = false := by
  have hascii : c.toNat < 128 := by
    unfold isIdentStart at h
    rcases Bool.or_eq_true_iff.mp h with h | h
    · exact toNat_lt_of_isLetter h
    · rw [beq_iff_eq] at h
      rw [h]
      decide
  revert h
  apply of_ascii (P := fun c => isIdentStart c = true → isBlank c = false) hascii
  decide

/-- Texts are told apart by a character that only one of them has. -/
theorem sameFold_eq_false {s t : String} {c : Char} (hs : c ∈ foldCase s.toList)
    (ht : c ∉ foldCase t.toList) : sameFold s t = false := by
  unfold sameFold
  rw [beq_eq_false_iff_ne]
  intro heq
  exact ht (heq ▸ hs)

/-- What stands in front of the first colon is taken for an authentication scheme if it
is called like one. -/
theorem isScheme_eq {subject front : String} {rest : List Char}
    (h : subject.toList = front.toList ++ ':' :: rest) (hfront : ':' ∉ front.toList) :
    Subject.isScheme subject = Subject.schemes.any fun scheme => sameFold front scheme := by
  unfold Subject.isScheme
  dsimp only
  rw [h, takeWhile_ne_append hfront, String.ofList_toList]

/-- An entity `Path::"id"`. The path is a chain of names, the type being the last
one; the text of the id is arbitrary. -/
structure EntityLiteral where
  namespaces : List String := []
  kind : String
  id : String
  isIdent : ∀ name ∈ namespaces ++ [kind], IsIdent name

namespace EntityLiteral

variable (e : EntityLiteral)

/-- The names before the id. -/
def path : String := "::".intercalate (e.namespaces ++ [e.kind])

/-- The first name of the path. -/
def root : String := e.namespaces.headD e.kind

/-- The entity as it is written. -/
def text : String := e.path ++ "::\"" ++ e.id ++ "\""

/-- Whether the first name of the path is called like an authentication scheme. -/
def hasSchemeRoot : Bool := Subject.schemes.any fun scheme => sameFold e.root scheme

theorem toList_text :
    e.text.toList = e.path.toList ++ [':', ':', '"'] ++ (e.id.toList ++ ['"']) := by
  simp [text]

/-! ## The path -/

theorem not_mem_path {c : Char} (hcolon : c ≠ ':') (hc : isIdentPart c = false) :
    c ∉ e.path.toList := by
  have hnames : ∀ name ∈ e.namespaces ++ [e.kind], c ∉ name.toList := fun name hname =>
    (e.isIdent name hname).not_mem hc
  unfold path
  obtain ⟨first, more, hpath⟩ := List.exists_cons_of_ne_nil
    (List.append_ne_nil_of_right_ne_nil e.namespaces (List.cons_ne_nil e.kind []))
  rw [hpath] at hnames ⊢
  rw [toList_intercalate_cons]
  intro hmem
  rcases List.mem_append.mp hmem with hmem | hmem
  · exact hnames first List.mem_cons_self hmem
  · obtain ⟨name, hname, hmem⟩ := List.mem_flatMap.mp hmem
    rcases List.mem_append.mp hmem with hmem | hmem
    · simp [hcolon] at hmem
    · exact hnames name (List.mem_cons_of_mem _ hname) hmem

theorem not_mem_kind : ':' ∉ e.kind.toList :=
  (e.isIdent e.kind (by simp)).not_mem (by decide)

theorem isIdent_root : IsIdent e.root := by
  apply e.isIdent
  unfold root
  cases e.namespaces <;> simp

/-- The first name goes up to the first colon. -/
theorem exists_toList_text : ∃ rest, e.text.toList = e.root.toList ++ ':' :: rest := by
  rw [toList_text]
  unfold path root
  cases e.namespaces with
  | nil => exact ⟨_, by simp; rfl⟩
  | cons first more =>
    rw [List.cons_append, toList_intercalate_cons]
    cases more with
    | nil => exact ⟨_, by simp; rfl⟩
    | cons next more => exact ⟨_, by simp; rfl⟩

/-! ## The type -/

/-- The first quote ends the path. -/
theorem typePath?_text : typePath? e.text.toList = some e.path.toList := by
  have hquote : '"' ∉ e.path.toList ++ [':', ':'] := by
    rw [List.mem_append, not_or]
    exact ⟨e.not_mem_path (by decide) (by decide), by decide⟩
  have hcut : splitFirst? [':', ':', '"'] e.text.toList =
      some (e.path.toList, e.id.toList ++ ['"']) := by
    rw [toList_text]
    exact splitFirst?_append hquote
  unfold typePath?
  rw [hcut]

/-- The last name of the path follows the last colons. -/
theorem lastSegment_path : lastSegment e.path.toList = e.kind.toList := by
  unfold lastSegment path
  cases e.namespaces with
  | nil =>
    have hnone : splitLast? [':', ':'] e.kind.toList = none :=
      splitLast?_eq_none List.mem_cons_self e.not_mem_kind
    have hjoin : ("::".intercalate ([] ++ [e.kind])).toList = e.kind.toList := by
      rw [List.nil_append, toList_intercalate_cons, List.flatMap_nil, List.append_nil]
    rw [hjoin, hnone]
  | cons first more =>
    have hjoin : ("::".intercalate (first :: more ++ [e.kind])).toList =
        ("::".intercalate (first :: more)).toList ++ [':', ':'] ++ e.kind.toList := by
      rw [List.cons_append, toList_intercalate_cons, toList_intercalate_cons, List.flatMap_append,
        List.flatMap_singleton]
      simp only [List.append_assoc]
      rfl
    have hcut : splitLast? [':', ':'] ("::".intercalate (first :: more ++ [e.kind])).toList =
        some (("::".intercalate (first :: more)).toList, e.kind.toList) := by
      rw [hjoin]
      exact @splitLast?_append ':' [':'] [] _ _ e.not_mem_kind
    rw [hcut]

theorem entityType_text : entityType e.text = e.kind := by
  unfold entityType
  dsimp only
  rw [typePath?_text]
  dsimp only
  rw [lastSegment_path, String.ofList_toList]

/-! ## The subject -/

theorem trim_text : trim e.text.toList = e.text.toList := by
  apply trim_eq_self
  · obtain ⟨c, cs, hroot, hstart, -⟩ := e.isIdent_root
    obtain ⟨rest, htext⟩ := e.exists_toList_text
    rw [htext, hroot]
    exact stops_cons (isBlank_of_isIdentStart hstart) _
  · rw [toList_text, ← List.append_assoc, List.reverse_append]
    exact stops_cons (by decide) _

/-- No name without quotes is an entity with one. -/
theorem sameFold_text {name : String} (h : '"' ∉ foldCase name.toList) :
    sameFold e.text name = false := by
  refine sameFold_eq_false ?_ h
  rw [toList_text]
  simp [foldCase]

/-- The first name of the path is what an authentication scheme would be. -/
theorem isScheme_text : Subject.isScheme e.text = e.hasSchemeRoot := by
  obtain ⟨rest, htext⟩ := e.exists_toList_text
  exact isScheme_eq htext (e.isIdent_root.not_mem (by decide))

theorem of_text (containerTypes : List String) :
    EntityKind.of containerTypes e.text =
      if containerTypes.any (sameFold · e.kind) then .container else .single := by
  rw [EntityKind.of, entityType_text]

/-- Whatever blanks stand around it, the subject is the entity, a container if the
last name of its path is listed as one. But if the first name of its path is called
like an authentication scheme, the subject is everyone who is authenticated. -/
theorem classify_text (containerTypes : List String) {before after : List Char}
    (hbefore : ∀ c ∈ before, isBlank c = true) (hafter : ∀ c ∈ after, isBlank c = true) :
    Subject.classify containerTypes (String.ofList (before ++ e.text.toList ++ after)) =
      if e.hasSchemeRoot then .anyAuthenticated
      else if containerTypes.any (sameFold · e.kind) then .container e.text
      else .single e.text := by
  have htrim : trimmed (String.ofList (before ++ e.text.toList ++ after)) = e.text := by
    rw [trimmed, String.toList_ofList, trim_append_blanks hbefore hafter e.trim_text,
      String.ofList_toList]
  have hany : (e.text.isEmpty || sameFold e.text Subject.anyName) = false := by
    rw [Bool.or_eq_false_iff]
    refine ⟨?_, e.sameFold_text (by decide)⟩
    rw [Bool.eq_false_iff, Ne, String.isEmpty_iff]
    intro hempty
    obtain ⟨rest, htext⟩ := e.exists_toList_text
    rw [hempty] at htext
    simp at htext
  have hauthenticated : sameFold e.text Subject.anyAuthenticatedName = false :=
    e.sameFold_text (by decide)
  unfold Subject.classify
  dsimp only
  rw [htrim, hany, hauthenticated, isScheme_text, of_text, Bool.false_or, if_neg Bool.false_ne_true]
  split_ifs <;> rfl

end EntityLiteral

/-- A group below a namespace that is called like everyone, with separators of
every kind in its id. -/
def nestedLiteral : EntityLiteral where
  namespaces := ["any", "_Ns1"]
  kind := "gROUP"
  id := " jwt:x::\"User "
  isIdent := by decide

theorem classify_nestedLiteral :
    (∀ c ∈ ['\u00a0', '\t'], isBlank c = true) ∧ (∀ c ∈ ['\n'], isBlank c = true) ∧
      Subject.classify Idql.defaultContainerTypes
          (String.ofList (['\u00a0', '\t'] ++ nestedLiteral.text.toList ++ ['\n'])) =
        .container "any::_Ns1::gROUP::\" jwt:x::\"User \"" := by
  have hbefore : ∀ c ∈ ['\u00a0', '\t'], isBlank c = true := by decide
  have hafter : ∀ c ∈ ['\n'], isBlank c = true := by decide
  refine ⟨hbefore, hafter, ?_⟩
  rw [nestedLiteral.classify_text Idql.defaultContainerTypes hbefore hafter]
  decide

/-- A user below a namespace that is called like an authentication scheme. -/
def schemeLiteral : EntityLiteral where
  namespaces := ["Saml"]
  kind := "User"
  id := "alice"
  isIdent := by decide

/-- A user is taken for everyone who is authenticated, though its type is looked
up as that of a user. -/
theorem classify_schemeNamespace :
    schemeLiteral.text = "Saml::User::\"alice\"" ∧ entityType schemeLiteral.text = "User" ∧
      Subject.classify Idql.defaultContainerTypes schemeLiteral.text = .anyAuthenticated := by
  decide

end PolicyDialects.Cedar
