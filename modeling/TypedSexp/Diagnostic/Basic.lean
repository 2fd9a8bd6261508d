import TypedSexp.Source.Range
import TypedSexp.Text.Quoted
import TypedSexp.Ty.Basic

namespace TypedSexp

inductive Stage where
  | lexical
  | parse
  | typing
  | runtime
  | invalid
deriving DecidableEq, Repr

def Stage.toText : Stage → Text
  | .lexical => utf8 "lexical"
  | .parse => utf8 "parse"
  | .typing => utf8 "type"
  | .runtime => utf8 "runtime"
  | .invalid => utf8 "invalid"

inductive ReadFault where
  | unmatched
  | unclosed
  | notOne (found : Nat)
  | other (text : Text)
deriving DecidableEq, Repr

def ReadFault.message : ReadFault → Text
  | .unmatched => utf8 "unexpected ')' without matching '('"
  | .unclosed => utf8 "unbalanced parentheses: '(' is never closed"
  | .notOne found => utf8 "expected exactly one expression but found " ++ Text.ofNat found
  | .other text => text

inductive Misuse where
  | arity (expected found : Nat)
  | operands (expected : Text) (found : List Text)
  | overflow (left right : UInt64)
  | other (reason : Text)
deriving DecidableEq, Repr

def Misuse.message (primitive : Name) : Misuse → Text
  | .arity expected found =>
      utf8 "expected " ++ Text.ofNat expected ++ utf8 " arguments but found " ++ Text.ofNat found
  | .operands expected found =>
      utf8 "expected " ++ expected ++ utf8 " but found " ++
        Text.join (utf8 " and ") (found.map Text.inQuotes)
  | .overflow left right =>
      utf8 "result of " ++ Text.ofNat left.toNat ++ utf8 " " ++ primitive ++ utf8 " " ++
        Text.ofNat right.toNat ++ utf8 " does not fit in a Nat"
  | .other reason => reason

inductive Cause where
  | unclassified (text : Text)
  /-- A keyword that breaks off; `found` is empty at the end of input. -/
  | unexpectedByte (expected found : Text)
  | unreadable (fault : ReadFault)
  | unexpectedEnd (expected : Text)
  | unexpectedToken (expected found : Text) (index : Int)
  | trailingTokens (remaining : List Text)
  | malformedForm (form expected got : Text)
  | unknownForm (what form : Text)
  | badLiteral (text reason : Text)
  | unboundVariable (name : Name) (stage : Stage)
  | typeMismatch (expected found : Ty) (place : Text)
  | notAFunction (found : Text) (stage : Stage)
  | arityMismatch (expected found : Int) (stage : Stage)
  | missingMember (name : Name) (container : Text) (isVariant : Bool) (stage : Stage)
  | notProjectable (found : Text) (name : Name) (stage : Stage)
  | invalidTarget (target : Text) (stage : Stage)
  | redefinition (name : Name)
  | variantMismatch (requested actual : Name)
  | notABoolean (found : Text)
  | primitiveMisuse (primitive : Name) (misuse : Misuse)
deriving Repr, Inhabited

namespace Cause

def code : Cause → Nat
  | .unclassified .. => 0
  | .unexpectedByte .. => 1
  | .unreadable .. => 2
  | .unexpectedEnd .. => 3
  | .unexpectedToken .. => 4
  | .trailingTokens .. => 5
  | .malformedForm .. => 6
  | .unknownForm .. => 7
  | .badLiteral .. => 8
  | .unboundVariable .. => 9
  | .typeMismatch .. => 10
  | .notAFunction .. => 11
  | .arityMismatch .. => 12
  | .missingMember .. => 13
  | .notProjectable .. => 14
  | .invalidTarget .. => 15
  | .redefinition .. => 16
  | .variantMismatch .. => 17
  | .notABoolean .. => 18
  | .primitiveMisuse .. => 19

def stage : Cause → Stage
  | .unclassified .. => .runtime
  | .unexpectedByte .. => .lexical
  | .unreadable .. => .parse
  | .unexpectedEnd .. => .parse
  | .unexpectedToken .. => .parse
  | .trailingTokens .. => .parse
  | .malformedForm .. => .parse
  | .unknownForm .. => .parse
  | .badLiteral .. => .parse
  | .unboundVariable _ stage => stage
  | .typeMismatch .. => .typing
  | .notAFunction _ stage => stage
  | .arityMismatch _ _ stage => stage
  | .missingMember _ _ _ stage => stage
  | .notProjectable _ _ stage => stage
  | .invalidTarget _ stage => stage
  | .redefinition .. => .runtime
  | .variantMismatch .. => .runtime
  | .notABoolean .. => .runtime
  | .primitiveMisuse .. => .runtime

def memberHint (what : Text) (expected found : List (Name × Ty)) : Text :=
  let listed (label : Text) (names : List Name) : List Text :=
    if names.isEmpty then []
    else [label ++ utf8 " " ++ what ++ utf8 " " ++ Text.join (utf8 ", ") names]
  let hints := listed (utf8 "missing") (Members.missingFrom expected found) ++
    listed (utf8 "unexpected") (Members.missingFrom found expected)
  if hints.isEmpty then [] else utf8 " (" ++ Text.join (utf8 "; ") hints ++ utf8 ")"

def mismatchHint : Ty → Ty → Text
  | .record expected, .record found => memberHint (utf8 "field") expected found
  | .union expected, .union found => memberHint (utf8 "variant") expected found
  | _, _ => []

def detail : Cause → Text
  | .unclassified text => text
  | .unexpectedByte expected found =>
      utf8 "unexpected value: expected " ++ expected ++ utf8 " but found " ++
        (if found.isEmpty then utf8 "end of input" else found.quoted)
  | .unreadable fault => fault.message
  | .unexpectedEnd expected =>
      if expected.isEmpty then utf8 "unexpected end of input"
      else utf8 "unexpected end of input, expected " ++ expected
  | .unexpectedToken expected found index =>
      utf8 "expected " ++ expected ++ utf8 " but found " ++ found.quoted ++ utf8 " at token " ++
        Text.ofInt index
  | .trailingTokens remaining =>
      utf8 "unexpected tokens at end of input: " ++ Text.join (utf8 " ") remaining
  | .malformedForm form expected got =>
      form.inQuotes ++ utf8 " expects " ++ expected ++ utf8 " but " ++ got
  | .unknownForm what form => utf8 "unknown " ++ what ++ utf8 " " ++ form.inQuotes
  | .badLiteral text reason => utf8 "invalid literal " ++ text.inQuotes ++ utf8 ": " ++ reason
  | .unboundVariable name _ => utf8 "unbound variable " ++ name.inQuotes
  | .typeMismatch expected found place =>
      utf8 "expected " ++ expected.toText ++ utf8 " but found " ++ found.toText ++ utf8 " in " ++
        place ++ mismatchHint expected found
  | .notAFunction found .typing => utf8 "expected arrow type but found " ++ found.inQuotes
  | .notAFunction found _ => utf8 "cannot apply non-function value " ++ found.inQuotes
  | .arityMismatch expected found _ =>
      utf8 "expected " ++ Text.ofInt expected ++ utf8 " arguments but found " ++ Text.ofInt found
  | .missingMember name container isVariant _ =>
      utf8 "no " ++ (if isVariant then utf8 "variant " else utf8 "field ") ++ name.inQuotes ++
        utf8 " in " ++ container
  | .notProjectable found name _ =>
      utf8 "expected record or union to project " ++ name.inQuotes ++ utf8 " from but found " ++
        found.inQuotes
  | .invalidTarget target _ => utf8 "assignment to non-location " ++ target.inQuotes
  | .redefinition name => utf8 "redefinition of variable " ++ name.inQuotes
  | .variantMismatch requested actual =>
      utf8 "requested variant " ++ requested.inQuotes ++ utf8 " but the union value holds " ++
        actual.inQuotes
  | .notABoolean found => utf8 "expected a boolean guard but found " ++ found.inQuotes
  | .primitiveMisuse primitive misuse =>
      utf8 "primitive " ++ primitive.inQuotes ++ utf8 ": " ++ misuse.message primitive

def message : Cause → Text
  | .unclassified text => utf8 "unclassified error: " ++ text
  | cause => cause.stage.toText ++ utf8 " error: " ++ cause.detail

end Cause

structure Diagnostic where
  range : Range
  cause : Cause
deriving Repr, Inhabited

namespace Diagnostic

def ofFailure (text : Text) : Diagnostic := ⟨Range.none, .unclassified text⟩

def message (d : Diagnostic) : Text := d.cause.message

def stage (d : Diagnostic) : Stage := d.cause.stage

def withCode (d : Diagnostic) : Text :=
  utf8 "(E" ++ Text.ofNatPadded 3 d.cause.code ++ utf8 ") " ++ d.message

def format (file source : Text) (d : Diagnostic) : Text :=
  match LineCol.ofPosition? source d.range.start with
  | some place =>
      file ++ utf8 ":" ++ Text.ofNat place.line ++ utf8 ":" ++ Text.ofNat place.column ++
        utf8 ": " ++ d.withCode
  | none => if file.isEmpty then d.withCode else file ++ utf8 ": " ++ d.withCode

end Diagnostic

end TypedSexp
