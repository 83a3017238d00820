import PolicyDialects.Cedar.Mapping
import PolicyDialects.Proofs.Cedar.EntityLiterals

/-!
# Entities with a prefix

The type of an entity that is written `kind:id`. The id may hold anything, but does
not start with a colon, which would make it the end of `kind::`.

* `PrefixedEntity` — such an entity.

Results:

* `PrefixedEntity.entityType_text`: the type in every case.
* `PrefixedEntity.entityType_text_eq_kind_iff`: it is the prefix if the id holds no
  `::`.
* `PrefixedEntity.subjectScope_text`, `PrefixedEntity.objectScope_text`: an entity of
  such an id whose prefix is a listed type is exported as a container.
* `PrefixedEntity.entityType_prefixed`: both in one.
* `entityType_doubleColonId`: with a `::` in its id, a group is no container.
-/

namespace PolicyDialects.Cedar

open Idql (EntityKind Subject entityType lastSegment typePath?)
open Text

/-! ## Type paths -/

theorem typePath?_eq_none_iff {cs : List Char} :
    typePath? cs = none ↔ occursIn [':', ':'] cs = false := by
  rw [Bool.eq_false_iff, Ne, occursIn_iff]
  unfold typePath?
  cases hfirst : splitFirst? [':', ':', '"'] cs with
  | none => simp only [Option.map_eq_none_iff, splitLast?_eq_none_iff]
  | some cut =>
    have hquoted : [':', ':'] <:+: cs := by
      obtain ⟨path, rest⟩ := cut
      rw [append_of_splitFirst? hfirst]
      exact ⟨path, '"' :: rest, by simp⟩
    simp [hquoted]

theorem prefix_of_typePath? {cs path : List Char} (h : typePath? cs = some path) :
    path <+: cs := by
  unfold typePath? at h
  split at h
  · rename_i rest hcut
    obtain rfl := Option.some.inj h
    rw [append_of_splitFirst? hcut, List.append_assoc]
    exact List.prefix_append _ _
  · obtain ⟨⟨before, after⟩, hcut, rfl⟩ := Option.map_eq_some_iff.mp h
    rw [append_of_splitLast? hcut, List.append_assoc]
    exact List.prefix_append _ _

theorem head?_ne_of_prefix {cs ds : List Char} {c : Char} (h : ds <+: cs)
    (hc : cs.head? ≠ some c) : ds.head? ≠ some c := by
  obtain ⟨rest, rfl⟩ := h
  cases ds with
  | nil => simp
  | cons d ds => exact hc

/-! ## Entities -/

/-- An entity `kind:id`. The kind is a word, the text of the id is arbitrary but for
its start. -/
structure PrefixedEntity where
  kind : String
  id : String
  kind_ne : kind.toList ≠ []
  isWord : ∀ c ∈ kind.toList, isIdentStart c = true
  apart : id.toList.head? ≠ some ':'

namespace PrefixedEntity

variable (e : PrefixedEntity)

/-- The entity as it is written. -/
def text : String := e.kind ++ ":" ++ e.id

theorem toList_text : e.text.toList = e.kind.toList ++ ':' :: e.id.toList := by
  simp [text]

theorem not_mem_kind {c : Char} (hc : isIdentStart c = false) : c ∉ e.kind.toList := by
  intro hmem
  rw [e.isWord c hmem] at hc
  cases hc

/-! ## The type -/

/-- No `::` starts in the prefix, so the last one of a path is behind it. -/
theorem splitLast?_kind {path : List Char} (hpath : path.head? ≠ some ':') :
    splitLast? [':', ':'] (e.kind.toList ++ ':' :: path) =
      (splitLast? [':', ':'] path).map fun p => (e.kind.toList ++ ':' :: p.1, p.2) :=
  search_append (splitLast? [':', ':']) (fun d ds h => splitLast?_cons h)
    (e.not_mem_kind (by decide)) hpath

theorem typePath?_text :
    typePath? e.text.toList = (typePath? e.id.toList).map (e.kind.toList ++ ':' :: ·) := by
  have hfirst := search_append (splitFirst? [':', ':', '"']) (fun d ds h => splitFirst?_cons h)
    (e.not_mem_kind (by decide)) e.apart
  unfold typePath?
  rw [toList_text, hfirst, e.splitLast?_kind e.apart]
  cases splitFirst? [':', ':', '"'] e.id.toList with
  | some cut => rfl
  | none => simp [Function.comp_def]

/-- The prefix belongs to the last name of a path if that is its only name. -/
theorem lastSegment_append {path : List Char} (hpath : path.head? ≠ some ':') :
    lastSegment (e.kind.toList ++ ':' :: path) =
      if occursIn [':', ':'] path then lastSegment path else e.kind.toList ++ ':' :: path := by
  unfold lastSegment
  rw [e.splitLast?_kind hpath]
  cases hcut : splitLast? [':', ':'] path with
  | some cut =>
    have hoccurs : occursIn [':', ':'] path = true := by
      rw [occursIn_iff, ← not_not (a := _ <:+: _), ← splitLast?_eq_none_iff, hcut]
      simp
    rw [if_pos hoccurs]
    rfl
  | none =>
    have hoccurs : ¬occursIn [':', ':'] path = true := by
      rw [occursIn_iff]
      exact splitLast?_eq_none_iff.mp hcut
    rw [if_neg hoccurs]
    rfl

/-- The type is the prefix, or the last name in front of a `::` of the id. -/
theorem entityType_text :
    entityType e.text =
      match typePath? e.id.toList with
      | none => e.kind
      | some path => String.ofList <|
          if occursIn [':', ':'] path then lastSegment path
          else e.kind.toList ++ ':' :: path := by
  unfold entityType
  dsimp only
  rw [typePath?_text]
  cases hpath : typePath? e.id.toList with
  | none =>
    have hcut : splitFirst? [':'] e.text.toList = some (e.kind.toList, e.id.toList) := by
      have hkind : ':' ∉ e.kind.toList ++ [] := by
        rw [List.append_nil]
        exact e.not_mem_kind (by decide)
      rw [toList_text, List.append_cons]
      exact splitFirst?_append hkind
    rw [Option.map_none, hcut]
    exact String.ofList_toList
  | some path =>
    have hhead := head?_ne_of_prefix (prefix_of_typePath? hpath) e.apart
    rw [Option.map_some]
    dsimp only
    rw [e.lastSegment_append hhead]

/-- An id without `::` leaves the prefix as the type. Another one does so only if it
repeats the prefix behind a `::`, as the last name in front of another one. -/
theorem entityType_text_eq_kind_iff :
    entityType e.text = e.kind ↔
      occursIn [':', ':'] e.id.toList = false ∨
        ∃ path, typePath? e.id.toList = some path ∧ occursIn [':', ':'] path = true ∧
          lastSegment path = e.kind.toList := by
  rw [entityType_text, ← typePath?_eq_none_iff]
  cases hpath : typePath? e.id.toList with
  | none => simp
  | some path =>
    have hlonger : e.kind.toList ++ ':' :: path ≠ e.kind.toList := by simp
    by_cases hoccurs : occursIn [':', ':'] path = true
    · simp [hoccurs, ← String.toList_inj]
    · simp [hoccurs, ← String.toList_inj]

/-! ## Export -/

/-- The entity without blanks at its end. -/
def trimEnd : PrefixedEntity where
  kind := e.kind
  id := String.ofList (e.id.toList.rdropWhile isBlank)
  kind_ne := e.kind_ne
  isWord := e.isWord
  apart := by
    rw [String.toList_ofList]
    exact head?_ne_of_prefix (List.rdropWhile_prefix isBlank _) e.apart

theorem trimmed_text : trimmed e.text = e.trimEnd.text := by
  obtain ⟨c, cs, hkind⟩ := List.exists_cons_of_ne_nil e.kind_ne
  have hfront : e.text.toList.dropWhile isBlank = e.text.toList := by
    have hblank : isBlank c = false :=
      isBlank_of_isIdentStart (e.isWord c (by rw [hkind]; exact List.mem_cons_self))
    rw [toList_text, hkind, List.cons_append, List.dropWhile_cons_of_neg (by simp [hblank])]
  have hback : (e.kind.toList ++ ':' :: e.id.toList).rdropWhile isBlank =
      e.kind.toList ++ ':' :: e.id.toList.rdropWhile isBlank := by
    unfold List.rdropWhile
    rw [List.reverse_append, List.reverse_cons, List.append_assoc, List.dropWhile_append]
    split
    · rename_i hempty
      rw [List.isEmpty_iff.mp hempty, List.singleton_append,
        List.dropWhile_cons_of_neg (by decide)]
      simp
    · simp
  rw [← String.toList_inj, trimmed, String.toList_ofList]
  show (e.text.toList.dropWhile isBlank).rdropWhile isBlank = _
  rw [hfront, toList_text, hback, toList_text, trimEnd, String.toList_ofList]

theorem occursIn_trimEnd (h : occursIn [':', ':'] e.id.toList = false) :
    occursIn [':', ':'] e.trimEnd.id.toList = false := by
  rw [Bool.eq_false_iff, Ne, occursIn_iff] at h ⊢
  rw [trimEnd, String.toList_ofList]
  exact fun hmark => h (hmark.trans (List.rdropWhile_prefix isBlank _).isInfix)

/-- An entity whose prefix is a listed type is a container. -/
theorem of_text {containerTypes : List String} (h : occursIn [':', ':'] e.id.toList = false)
    (hkind : containerTypes.any (sameFold · e.kind) = true) :
    EntityKind.of containerTypes e.text = .container := by
  rw [EntityKind.of, e.entityType_text_eq_kind_iff.mpr (.inl h), if_pos hkind]

/-- No name without a colon is an entity with one. -/
theorem sameFold_text {name : String} (h : ':' ∉ foldCase name.toList) :
    sameFold e.text name = false := by
  refine sameFold_eq_false ?_ h
  rw [toList_text]
  simp [foldCase]

theorem isScheme_text :
    Subject.isScheme e.text = Subject.schemes.any fun scheme => sameFold e.kind scheme :=
  isScheme_eq e.toList_text (e.not_mem_kind (by decide))

theorem isEmpty_text : e.text.isEmpty = false := by
  rw [Bool.eq_false_iff, Ne, String.isEmpty_iff, ← String.toList_inj, toList_text]
  simp

section

variable {m : Mapping} (h : occursIn [':', ':'] e.id.toList = false)
  (hkind : m.containerTypes.any (sameFold · e.kind) = true)

include h hkind

/-- As an object, it is matched by its members. -/
theorem objectScope_text : m.objectScope e.text = some ⟨.in, trimmed e.text⟩ := by
  have hof : EntityKind.of m.containerTypes e.trimEnd.text = .container :=
    e.trimEnd.of_text (e.occursIn_trimEnd h) hkind
  unfold Mapping.objectScope
  dsimp only
  rw [trimmed_text, isEmpty_text, if_neg Bool.false_ne_true, hof]

/-- As a subject, it is matched by its members, unless its prefix is an
authentication scheme. -/
theorem subjectScope_text (hscheme : Subject.schemes.any (sameFold e.kind ·) = false) :
    m.subjectScope e.text = (some ⟨.in, trimmed e.text⟩, []) := by
  have hof : EntityKind.of m.containerTypes e.trimEnd.text = .container :=
    e.trimEnd.of_text (e.occursIn_trimEnd h) hkind
  have hany : (e.trimEnd.text.isEmpty || sameFold e.trimEnd.text Subject.anyName) = false := by
    rw [isEmpty_text, e.trimEnd.sameFold_text (by decide)]
    rfl
  have hauthenticated : (sameFold e.trimEnd.text Subject.anyAuthenticatedName ||
      Subject.isScheme e.trimEnd.text) = false := by
    rw [isScheme_text, e.trimEnd.sameFold_text (by decide)]
    exact hscheme
  unfold Mapping.subjectScope Subject.classify
  dsimp only
  rw [trimmed_text, hany, hauthenticated, if_neg Bool.false_ne_true, if_neg Bool.false_ne_true, hof]

end

/-- The type of an entity `kind:id` is its prefix, if the id holds no `::`, or if what
it has in front of its own `::` ends with the prefix again. A group without `::` in its
id is a container of the default ones, and is exported with `in`. -/
theorem entityType_prefixed :
    (entityType e.text = e.kind ↔
      occursIn [':', ':'] e.id.toList = false ∨
        ∃ path, typePath? e.id.toList = some path ∧ occursIn [':', ':'] path = true ∧
          lastSegment path = e.kind.toList) ∧
      (e.kind = "group" → occursIn [':', ':'] e.id.toList = false → ∀ names : NameMap,
        EntityKind.of Idql.defaultContainerTypes e.text = .container ∧
          ({ names } : Mapping).subjectScope e.text = (some ⟨.in, trimmed e.text⟩, []) ∧
            ({ names } : Mapping).objectScope e.text = some ⟨.in, trimmed e.text⟩) := by
  refine ⟨e.entityType_text_eq_kind_iff, fun hgroup h names => ?_⟩
  have hkind : Idql.defaultContainerTypes.any (sameFold · e.kind) = true := by
    rw [hgroup]
    decide
  have hscheme : Subject.schemes.any (sameFold e.kind ·) = false := by
    rw [hgroup]
    decide
  exact ⟨e.of_text h hkind, e.subjectScope_text h hkind hscheme, e.objectScope_text h hkind⟩

end PrefixedEntity

/-- A group whose id has separators of every kind, but no two colons in a row. -/
def colonGroup : PrefixedEntity where
  kind := "group"
  id := "team:eu:\"a\": b \u00a0"
  kind_ne := by decide
  isWord := by decide
  apart := by decide

theorem entityType_colonGroup :
    colonGroup.kind = "group" ∧ occursIn [':', ':'] colonGroup.id.toList = false ∧
      entityType colonGroup.text = "group" ∧
      EntityKind.of Idql.defaultContainerTypes colonGroup.text = .container ∧
      ({} : Mapping).subjectScope colonGroup.text = (some ⟨.in, "group:team:eu:\"a\": b"⟩, []) := by
  have hgroup : colonGroup.kind = "group" := rfl
  have hid : occursIn [':', ':'] colonGroup.id.toList = false := by decide
  have htrimmed : trimmed colonGroup.text = "group:team:eu:\"a\": b" := by decide
  obtain ⟨htype, hcontainer⟩ := colonGroup.entityType_prefixed
  obtain ⟨hof, hsubject, -⟩ := hcontainer hgroup hid {}
  rw [htrimmed] at hsubject
  exact ⟨hgroup, hid, htype.mpr (.inl hid), hof, hsubject⟩

/-- A group whose id has a `::`. -/
def doubleColonGroup : PrefixedEntity where
  kind := "group"
  id := "a::b"
  kind_ne := by decide
  isWord := by decide
  apart := by decide

/-- The type of such a group has a part of its id in it, and is that of no container. -/
theorem entityType_doubleColonId :
    doubleColonGroup.text = "group:a::b" ∧ entityType doubleColonGroup.text = "group:a" ∧
      EntityKind.of Idql.defaultContainerTypes doubleColonGroup.text = .single ∧
      ({} : Mapping).subjectScope doubleColonGroup.text = (some ⟨.eq, "group:a::b"⟩, []) := by
  decide

end PolicyDialects.Cedar
