import PolicyDialects.Json.Decode
import PolicyDialects.Text.Numeral

/-!
# Policy errors

Everything that can go wrong between two policy dialects, one constructor per
cause (specification, sections 7 and 10.1).

* `PolicyError` — the causes.
* `PolicyError.message` — the wording shown to people.
* `PolicyError.position?` — the byte offset of a parse error.
* `PolicyError.toJson`, `PolicyError.ofJson?` — the tagged form in which errors
  are exchanged.
-/

namespace PolicyDialects

/-- Why a policy, filter or document was refused. Model of `PolicyError`. -/
inductive PolicyError where
  /-- Text that does not follow its grammar, with the byte offset of the fault
  and the offending piece of text. -/
  | parse (position : Nat) (lexeme message : String)
  /-- A function of one dialect that the other does not know. -/
  | unsupportedOperator (name : String)
  /-- An expression or policy without counterpart in the other dialect. -/
  | unsupportedShape (detail : String)
  /-- An attribute that a strict name map does not list. -/
  | unmappedName (name : String)
  /-- A store that could not answer. -/
  | store (detail : String)
  /-- Data of the wrong form. -/
  | invalidFormat (detail : String)
  /-- JSON that is malformed or does not fit the data model. -/
  | malformedJson
  /-- Policy text that the Cedar language does not accept. -/
  | cedarRejected (detail : String)
  /-- A CEL literal that denotes no value: an integer out of range, an unsigned
  or hexadecimal number, or a string with a bad escape. -/
  | literalWithoutValue
  deriving DecidableEq, Inhabited

namespace PolicyError

/-- The sentence shown to people. Model of `PolicyError.fmt`. -/
def message : PolicyError → String
  | .parse position lexeme message =>
    "parse error at " ++ String.ofList (Text.numeral position) ++ " near '" ++ lexeme ++ "': " ++
      message
  | .unsupportedOperator name => "unsupported operator: " ++ name
  | .unsupportedShape detail => "unsupported expression shape: " ++ detail
  | .unmappedName name => "no name mapping for attribute: " ++ name
  | .store detail => "policy store error: " ++ detail
  | .invalidFormat detail => "Invalid format: " ++ detail
  | .malformedJson => "Invalid format: malformed JSON"
  | .cedarRejected detail => "rejected by the Cedar parser: " ++ detail
  | .literalWithoutValue => "a CEL literal has no value"

/-- The byte offset of a parse error. Model of `PolicyError.position`. -/
def position? : PolicyError → Option Nat
  | .parse position _ _ => some position
  | _ => none

/-- The tagged form of an error. -/
def toJson : PolicyError → Json
  | .parse position lexeme message =>
    .record [("Parse", .record [("position", .nat position), ("lexeme", .str lexeme),
      ("message", .str message)])]
  | .unsupportedOperator name => .record [("UnsupportedOperator", .str name)]
  | .unsupportedShape detail => .record [("UnsupportedShape", .str detail)]
  | .unmappedName name => .record [("NameMappingMissing", .str name)]
  | .store detail => .record [("Io", .str detail)]
  | .invalidFormat detail => .record [("InvalidFormat", .str detail)]
  | .malformedJson => .record [("InvalidFormat", .str "malformed JSON")]
  | .cedarRejected detail => .record [("CedarValidation", .str detail)]
  | .literalWithoutValue => .record [("InvalidLiteral", .null)]

/-- The error of a tagged form. -/
def ofJson? (j : Json) : Option PolicyError := do
  let (tag, content) ← j.choice?
  match tag with
  | "Parse" =>
    match ← content.objectFields? ["position", "lexeme", "message"] with
    | [position, lexeme, message] =>
      return .parse (← position.required Json.word64?) (← lexeme.required Json.text?)
        (← message.required Json.text?)
    | _ => none
  | "UnsupportedOperator" => return .unsupportedOperator (← content.text?)
  | "UnsupportedShape" => return .unsupportedShape (← content.text?)
  | "NameMappingMissing" => return .unmappedName (← content.text?)
  | "Io" => return .store (← content.text?)
  | "InvalidFormat" => return .invalidFormat (← content.text?)
  | "CedarValidation" => return .cedarRejected (← content.text?)
  | _ => none

end PolicyError

end PolicyDialects
