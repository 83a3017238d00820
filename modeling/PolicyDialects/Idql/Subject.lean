import PolicyDialects.Text.Chars
import PolicyDialects.Text.Search

/-!
# Subjects and entities

What the text of an IDQL subject or object refers to.

* `entityType` — the type in an entity reference: `Group` in `Ns::Group::"x"`,
  `group` in `group:admins`, `doc` in `doc1`.
* `EntityKind` — whether a reference is to one entity or to the members of a
  container, by its type.
* `Subject` — everyone, everyone who is authenticated, or an entity.
-/

namespace PolicyDialects.Idql

open Text

/-! ## Entities -/

/-- The part before the first `::"`, or else before the last `::`. -/
def typePath? (cs : List Char) : Option (List Char) :=
  match splitFirst? [':', ':', '"'] cs with
  | some (path, _) => some path
  | none => (splitLast? [':', ':'] cs).map (·.1)

/-- What follows the last `::`, or the whole text. -/
def lastSegment (cs : List Char) : List Char :=
  match splitLast? [':', ':'] cs with
  | some (_, segment) => segment
  | none => cs

/-- The type in an entity reference: the last segment of its type path, or what
precedes a colon, or the leading letters and underscores, or all of it. Model of
`entity_type`. -/
def entityType (entity : String) : String :=
  let cs := entity.toList
  String.ofList <|
    match typePath? cs with
    | some path => lastSegment path
    | none =>
      match splitFirst? [':'] cs with
      | some (type, _) => type
      | none =>
        let word := cs.takeWhile isIdentStart
        if word.isEmpty then cs else word

/-- How an entity is matched. Model of `EntityKind`. -/
inductive EntityKind where
  /-- The entity itself. -/
  | single
  /-- The members of the entity. -/
  | container
  deriving DecidableEq, Inhabited

/-- A reference is to a container when its type is listed, in any case. Model of
`EntityKind.of`. -/
def EntityKind.of (containerTypes : List String) (entity : String) : EntityKind :=
  if containerTypes.any fun type => sameFold type (entityType entity) then .container else .single

/-- The container types of a mapping that names none. The default of
`CedarMapperOptions`. -/
def defaultContainerTypes : List String :=
  ["group", "domain", "role", "tenant", "folder", "directory"]

/-! ## Subjects -/

/-- Whom a subject refers to. Model of `Subject`. -/
inductive Subject where
  | any
  | anyAuthenticated
  | single (entity : String)
  | container (entity : String)
  deriving DecidableEq, Inhabited

namespace Subject

/-- The name of everyone. The constant `ANY`. -/
def anyName : String := "any"

/-- The name of everyone who is authenticated. The constant
`ANY_AUTHENTICATED`. -/
def anyAuthenticatedName : String := "anyAuthenticated"

/-- Authentication schemes, which stand for everyone who is authenticated. The
constant `AUTHENTICATED_SCHEMES`. -/
def schemes : List String := ["jwt", "saml", "basic"]

/-- Whether the text up to the first colon is an authentication scheme. Model of
`is_authenticated_scheme`. -/
def isScheme (subject : String) : Bool :=
  let scheme := String.ofList (subject.toList.takeWhile (· != ':'))
  schemes.any fun s => sameFold scheme s

/-- Whom a subject text refers to; white space around it does not count. Model
of `Subject.classify`. -/
def classify (containerTypes : List String) (subject : String) : Subject :=
  let name := trimmed subject
  if name.isEmpty || sameFold name anyName then .any
  else if sameFold name anyAuthenticatedName || isScheme name then .anyAuthenticated
  else
    match EntityKind.of containerTypes name with
    | .container => .container name
    | .single => .single name

end Subject

end PolicyDialects.Idql
