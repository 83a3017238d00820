import PolicyDialects.Error

/-!
# Why a Cedar text was refused

A reader that tries alternatives fails in many places before the text is
refused. The place to report is the furthest one, and the rules to name are
those that were tried there and not only inside another of them.

* `Rule` — the named rules of the grammar, in the order of their naming.
* `Trial` — a rule that was tried at a place, with the rules tried inside it.
* `Frontier.record` — the bookkeeping: an outer rule replaces the rules that
  failed inside it at its own place, unless there was exactly one.
* `refusal` — the parse error of a text from its trials.
-/

namespace PolicyDialects.Cedar

open Text

/-- The named rules of the grammar. -/
inductive Rule where
  | endOfInput
  | document
  | policy
  | note
  | effect
  | head
  | principal
  | action
  | resource
  | actionEq
  | actionIn
  | scopeOp
  | entity
  | clause
  | clauseKind
  | body
  | bodyText
  | string
  | ident
  deriving DecidableEq, Inhabited

namespace Rule

/-- All rules in the order in which messages name them. -/
def all : List Rule :=
  [.endOfInput, .document, .policy, .note, .effect, .head, .principal, .action, .resource,
    .actionEq, .actionIn, .scopeOp, .entity, .clause, .clauseKind, .body, .bodyText, .string,
    .ident]

/-- The name of a rule in messages. -/
def name : Rule → String
  | .endOfInput => "EOI"
  | .document => "document"
  | .policy => "policy"
  | .note => "annotation"
  | .effect => "effect"
  | .head => "head"
  | .principal => "principal"
  | .action => "action"
  | .resource => "resource"
  | .actionEq => "action_eq"
  | .actionIn => "action_in"
  | .scopeOp => "scope_op"
  | .entity => "entity"
  | .clause => "clause"
  | .clauseKind => "clause_kind"
  | .body => "body"
  | .bodyText => "body_text"
  | .string => "string"
  | .ident => "ident"

end Rule

/-! ## Bookkeeping -/

/-- A rule tried at a byte offset, whether it failed, and the trials inside. -/
inductive Trial where
  | mk (rule : Rule) (offset : Nat) (failed : Bool) (inner : List Trial)

/-- The furthest place where a rule failed, and the rules that failed there. -/
structure Frontier where
  offset : Nat := 0
  rules : List Rule := []
  deriving DecidableEq, Inhabited

namespace Frontier

/-- The number of rules that failed at a place, if it is the furthest one. -/
def countAt (f : Frontier) (offset : Nat) : Nat := if f.offset = offset then f.rules.length else 0

/-- Records the failure of a rule at a place, where `earlier` rules had failed
before it was tried. -/
def fail (earlier : Nat) (rule : Rule) (offset : Nat) (f : Frontier) : Frontier :=
  if f.countAt offset = earlier + 1 then f
  else if f.offset < offset then ⟨offset, [rule]⟩
  else if f.offset = offset then ⟨offset, f.rules.take earlier ++ [rule]⟩
  else f

mutual

/-- Records a trial. -/
def record (f : Frontier) : Trial → Frontier
  | .mk rule offset failed inner =>
    let after := recordAll f inner
    if failed then after.fail (f.countAt offset) rule offset else after

/-- Records trials one after the other. -/
def recordAll (f : Frontier) : List Trial → Frontier
  | [] => f
  | t :: ts => recordAll (record f t) ts

end

end Frontier

/-! ## Wording -/

/-- Names joined by commas and a final "or". -/
def alternatives : List String → String
  | [] => ""
  | [a] => a
  | [a, b] => a ++ " or " ++ b
  | names => ", ".intercalate names.dropLast ++ ", or " ++ names.getLastD ""

/-- The sentence that names the rules expected at a place. -/
def expectation (rules : List Rule) : String :=
  "expected " ++ alternatives ((Rule.all.filter fun r => r ∈ rules).map Rule.name)

/-- The text split at a byte offset. -/
def splitAtByte : (offset : Nat) → List Char → List Char × List Char
  | _, [] => ([], [])
  | offset, c :: cs =>
    if offset = 0 then ([], c :: cs)
    else
      let (before, after) := splitAtByte (offset - c.utf8Size) cs
      (c :: before, after)

/-- How a line break looks in the line that ends with it. -/
def breakSymbol (c : Char) : Char :=
  if c = '\r' then Char.ofNat 0x240D else if c = '\n' then Char.ofNat 0x240A else c

/-- Whether a character breaks a line. -/
def isBreak (c : Char) : Bool := c == '\n' || c == '\r'

/-- The text from a place up to the next white space. At a line break the breaks
of its line are shown by symbols; elsewhere they are taken out of the line
before the characters in front of the place are counted off. The lexeme of
`PolicyError.from`. -/
def lexemeAt (offset : Nat) (cs : List Char) : List Char :=
  let (before, after) := splitAtByte offset cs
  let ahead := (before.reverse.takeWhile (· != '\n')).reverse
  let line := ahead ++ after.takeWhile (· != '\n') ++ (after.dropWhile (· != '\n')).take 1
  let shown := match after with
    | c :: _ => if isBreak c then line.map breakSymbol else line.filter (!isBreak ·)
    | [] => line.filter (!isBreak ·)
  (shown.drop ahead.length).takeWhile (!isBlank ·)

/-- The parse error of a refused text. Model of `PolicyError.from` for what the
grammar refuses. -/
def refusal (text : List Char) (trials : List Trial) : PolicyError :=
  let frontier := Frontier.recordAll {} trials
  .parse frontier.offset (String.ofList (lexemeAt frontier.offset text))
    (expectation frontier.rules)

end PolicyDialects.Cedar
