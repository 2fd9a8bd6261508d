import TypedSexp.Diagnostic.Basic
import TypedSexp.Expr.Basic

/-!
Attributes of log records, and the sections that they name. The name of a section is what an
attribute holds, spelled out field by field. What is held by reference is spelled as a place in
memory, of which only the first digits are known beforehand.
-/

namespace TypedSexp.Log

inductive Content where
  | text (t : Text)
  | int (n : Int)
  | bool (b : Bool)
  | expr (e : Expr)
  | type (t : Ty)
  | diagnostics (ds : List Diagnostic)
deriving Repr

structure Attribute where
  key : Text
  content : Content
deriving Repr

structure Spelling where
  known : Text
  isWhole : Bool := true
deriving DecidableEq, Repr

namespace Spelling

def ofText (t : Text) : Spelling := ⟨t, true⟩

def place (known : String) : Spelling := ⟨utf8 known, false⟩

def append (first second : Spelling) : Spelling :=
  if first.isWhole then ⟨first.known ++ second.known, second.isWhole⟩ else first

def spaced : List Spelling → Spelling
  | [] => ofText []
  | [part] => part
  | part :: rest => (part.append (ofText [Byte.space])).append (spaced rest)

def enclosed (opening : String) (s : Spelling) (closing : String) : Spelling :=
  ((ofText (utf8 opening)).append s).append (ofText (utf8 closing))

def startsWith (s : Spelling) (start : Text) : Bool := start.isPrefixOf s.known

def ofRange (r : Range) : Spelling :=
  enclosed "\x7b" (spaced [ofText (Text.ofInt r.start), ofText (Text.ofInt r.stop)]) "\x7d"

def ofStage : Stage → Spelling
  | .lexical => ofText (utf8 "1")
  | .parse => ofText (utf8 "2")
  | .typing => ofText (utf8 "3")
  | .runtime => ofText (utf8 "4")
  | .invalid => place ""

def fieldsOf : Cause → List Spelling
  | .unclassified _ => []
  | .unexpectedByte expected found => [ofText expected, ofText found]
  | .unreadable fault => [ofText fault.message]
  | .unexpectedEnd expected => [ofText expected]
  | .unexpectedToken expected found index =>
      [ofText expected, ofText found, ofText (Text.ofInt index)]
  | .trailingTokens remaining => [enclosed "[" (spaced (remaining.map ofText)) "]"]
  | .malformedForm form expected got => [ofText form, ofText expected, ofText got]
  | .unknownForm what form => [ofText what, ofText form]
  | .badLiteral text reason => [ofText text, ofText reason]
  | .unboundVariable name stage => [ofText name, ofStage stage]
  | .typeMismatch .. => [place "0x"]
  | .notAFunction found stage => [ofText found, ofStage stage]
  | .arityMismatch expected found stage =>
      [ofText (Text.ofInt expected), ofText (Text.ofInt found), ofStage stage]
  | .missingMember name container isVariant stage =>
      [ofText name, ofText container, ofText (Text.ofBool isVariant), ofStage stage]
  | .notProjectable found name stage => [ofText found, ofText name, ofStage stage]
  | .invalidTarget target stage => [ofText target, ofStage stage]
  | .redefinition name => [ofText name]
  | .variantMismatch requested actual => [ofText requested, ofText actual]
  | .notABoolean found => [ofText found]
  | .primitiveMisuse primitive misuse => [ofText primitive, ofText (misuse.message primitive)]

def ofDiagnostic (d : Diagnostic) : Spelling :=
  match d.cause with
  | .unclassified _ => enclosed "\x7b" (place "0xc000") "\x7d"
  | cause =>
      enclosed "\x7b" (spaced (ofRange d.range :: fieldsOf cause ++ [ofText (utf8 "[]")])) "\x7d"

end Spelling

def Content.spelling : Content → Spelling
  | .text t => .ofText t
  | .int n => .ofText (Text.ofInt n)
  | .bool b => .ofText (Text.ofBool b)
  | .expr _ => .enclosed "\x7b" (.place "0xc000") "\x7d"
  | .type t => .ofText t.toText
  | .diagnostics ds =>
      if ds.isEmpty then .ofText (utf8 "<nil>")
      else .enclosed "&\x7b[" (.spaced (ds.map .ofDiagnostic)) "]\x7d"

def Attribute.section? (a : Attribute) : Option Spelling :=
  if a.key = utf8 "section" then some a.content.spelling else none

end TypedSexp.Log
